import GrammarInduction.Proofs.Learner.Rounds
import GrammarInduction.Proofs.Template.Kept
import Mathlib.Algebra.Group.Nat.Defs
import Mathlib.Data.List.Nodup
import Mathlib.Data.List.Perm.Subperm

/-!
# How many templates can be merged

Merging never adds a literal or a named slot, and under `minimalVariables` it never puts two anonymous
slots side by side. So what is merged from inputs, with slots or without, is confined
(`LearnerState.Confined`): it is a word over the letters of the inputs and an anonymous slot that is no
longer than twice an input and one letter more. Templates of equal forms are recorded once.

* `length_le_of_nodup_words`: there are so many words of bounded length over an alphabet.
* `Confined.addParent`: recording a merge keeps a state confined.
* `Confined.size_children_le`: the merged templates of a confined state are bounded in number.
-/

namespace GrammarInduction

/-! ## Counting words -/

namespace SlotValues

theorem mem_choices_replicate {α : Type u} {alphabet : List α} {n : Nat} {word : List α} :
    word ∈ choices (List.replicate n alphabet) ↔ word.length = n ∧ ∀ a ∈ word, a ∈ alphabet := by
  induction n generalizing word with
  | zero =>
    rw [List.replicate_zero, choices, List.mem_singleton, List.length_eq_zero_iff]
    exact ⟨fun h => ⟨h, by simp [h]⟩, And.left⟩
  | succ n ih =>
    simp only [List.replicate_succ, choices, List.mem_flatMap, List.mem_map, ih]
    constructor
    · rintro ⟨a, ha, word, ⟨hlen, hall⟩, rfl⟩
      exact ⟨by simp [hlen], List.forall_mem_cons.2 ⟨ha, hall⟩⟩
    · rintro ⟨hlen, hall⟩
      obtain ⟨a, word, rfl⟩ := List.exists_cons_of_length_eq_add_one hlen
      obtain ⟨ha, hall⟩ := List.forall_mem_cons.1 hall
      exact ⟨a, ha, word, ⟨by simpa using hlen, hall⟩, rfl⟩

theorem length_choices_replicate {α : Type u} (alphabet : List α) (n : Nat) :
    (choices (List.replicate n alphabet)).length = alphabet.length ^ n := by
  induction n with
  | zero => simp [choices]
  | succ n ih =>
    simp [List.replicate_succ, choices, List.length_flatMap, ih, Nat.pow_succ, Nat.mul_comm]

end SlotValues

/-- A word filled up to a given length. -/
def padded {α : Type u} (n : Nat) (word : List α) : List (Option α) :=
  word.map some ++ List.replicate (n - word.length) none

theorem padded_injective {α : Type u} {n : Nat} {v w : List α} (h : padded n v = padded n w) :
    v = w := by
  have hread (word : List α) : (padded n word).filterMap id = word := by
    simp [padded, List.filterMap_map]
  rw [← hread v, h, hread w]

/-- Different words of bounded length over an alphabet are no more than words of exactly that
length over an alphabet with one letter more. -/
theorem length_le_of_nodup_words {α : Type u} {words : List (List α)} {alphabet : List α} {n : Nat}
    (hnodup : words.Nodup) (hlen : ∀ w ∈ words, w.length ≤ n)
    (hmem : ∀ w ∈ words, ∀ a ∈ w, a ∈ alphabet) :
    words.length ≤ (alphabet.length + 1) ^ n := by
  have hsub : words.map (padded n) ⊆
      SlotValues.choices (List.replicate n (none :: alphabet.map some)) := by
    intro p hp
    obtain ⟨w, hw, rfl⟩ := List.mem_map.1 hp
    have := hlen w hw
    refine SlotValues.mem_choices_replicate.2 ⟨by simp [padded]; omega, fun a ha => ?_⟩
    rcases List.mem_append.1 ha with ha | ha
    · obtain ⟨b, hb, rfl⟩ := List.mem_map.1 ha
      exact .tail _ (List.mem_map.2 ⟨b, hmem w hw b hb, rfl⟩)
    · rw [(List.mem_replicate.1 ha).2]
      exact List.mem_cons_self
  have hpadded : (words.map (padded n)).Nodup := hnodup.map_on fun v _ w _ => padded_injective
  have hle := (List.subperm_of_subset hpadded hsub).length_le
  simpa [SlotValues.length_choices_replicate] using hle

/-! ## Templates of separate slots -/

namespace Template

variable {tokens : List Token} {a b t u : Template}

/-- There is at most one anonymous slot before each lasting token and one behind the last. -/
theorem Separate.length_le (h : Separate tokens) :
    tokens.length ≤ 2 * (lastingTokens tokens).length + 1 ∧
      ((∀ k ∈ tokens.head?, isAnonymous k = false) →
        tokens.length ≤ 2 * (lastingTokens tokens).length) := by
  induction tokens with
  | nil => simp
  | cons k tokens ih =>
    obtain ⟨hhead, htail⟩ := List.isChain_cons.1 h
    obtain ⟨hle, hlasts⟩ := ih htail
    cases hk : isAnonymous k with
    | true =>
      have hskip : lastingTokens (k :: tokens) = lastingTokens tokens :=
        List.filter_cons_of_neg (by simp [hk])
      have := hlasts fun l hl => by simpa [hk] using hhead l hl
      rw [hskip, List.length_cons]
      exact ⟨by omega, fun hfirst => by simpa [hk] using hfirst k rfl⟩
    | false =>
      have hkeep : lastingTokens (k :: tokens) = k :: lastingTokens tokens :=
        List.filter_cons_of_pos (by simp [hk])
      rw [hkeep, List.length_cons, List.length_cons]
      exact ⟨by omega, fun _ => by omega⟩

theorem lasting_eq_form (t : Template) : t.lasting = lastingTokens t.form := by
  have herase : ∀ k ∈ lastingTokens t.tokens, k = k.erase := by
    intro k hk
    have hlasts := (List.mem_filter.1 hk).2
    rcases k with text | (id | name)
    · rfl
    · simp [isAnonymous] at hlasts
    · rfl
  have hfilter : (fun k => !isAnonymous k) ∘ Token.erase = fun k => !isAnonymous k :=
    funext fun k => congrArg Bool.not (isAnonymous_erase k)
  rw [form, lastingTokens, List.filter_map, hfilter]
  exact (List.map_id _).symm.trans (List.map_congr_left herase)

theorem lasting_congr (h : (a == b) = true) : a.lasting = b.lasting := by
  rw [lasting_eq_form, lasting_eq_form, beq_iff.1 h]

theorem separate_iff_form (t : Template) : Separate t.tokens ↔ Separate t.form := by
  simp only [Separate, form, List.isChain_map, isAnonymous_erase]

theorem separate_congr (h : (a == b) = true) : Separate a.tokens ↔ Separate b.tokens := by
  rw [separate_iff_form a, separate_iff_form b, beq_iff.1 h]

theorem length_form_le (h : Separate t.tokens) : t.form.length ≤ 2 * t.lasting.length + 1 := by
  rw [form, List.length_map]
  exact h.length_le.1

theorem length_lasting_le (t : Template) : t.lasting.length ≤ t.length := List.length_filter_le _ _

/-- A letter of a form is a slot without a number, or it lasts. -/
theorem mem_form_cases {k : Token} (h : k ∈ t.form) : k = .slot (.anonymous 0) ∨ k ∈ t.lasting := by
  rw [lasting_eq_form]
  by_cases hk : isAnonymous k = true
  · left
    obtain ⟨l, hl, rfl⟩ := List.mem_map.1 h
    rcases l with text | (id | name)
    · simp [Token.erase, isAnonymous] at hk
    · rfl
    · simp [Token.erase, Slot.erase, isAnonymous] at hk
  · exact .inr (List.mem_filter.2 ⟨h, by simpa using hk⟩)

/-! ### Plain templates -/

theorem IsPlain.separate (h : t.IsPlain) : Separate t.tokens := by
  have hanonymous {k : Token} (hk : k.isSlot = false) : isAnonymous k = false := by
    by_contra hanon
    simp [isSlot_of_isAnonymous (by simpa using hanon)] at hk
  exact h.spaced.imp fun _ _ hst => hst.imp hanonymous hanonymous

theorem map_literal_literals (t : Template) :
    t.literals.map Token.literal = t.tokens.filter fun k => !k.isSlot := by
  obtain ⟨tokens⟩ := t
  induction tokens with
  | nil => rfl
  | cons k tokens ih =>
    cases k with
    | literal text => exact congrArg (Token.literal text :: ·) ih
    | slot s => exact ih

/-- What lasts of a plain template is in all that it covers. -/
theorem IsPlain.lasting_sublist_of_covers (h : t.IsPlain) (hcov : t.covers u = true) :
    t.lasting.Sublist u.lasting := by
  have hplain : t.lasting = t.literals.map Token.literal := by
    rw [map_literal_literals]
    refine List.filter_congr fun k hk => congrArg Bool.not (Bool.eq_iff_iff.2 ⟨?_, ?_⟩)
    · exact isSlot_of_isAnonymous
    · exact forall_nameless_iff.2 h.anonymous k hk
  have hliterals : (u.literals.map Token.literal).Sublist u.lasting := by
    rw [map_literal_literals]
    refine List.monotone_filter_right _ fun k hk => ?_
    by_contra hanon
    simp [isSlot_of_isAnonymous (by simpa using hanon)] at hk
  rw [hplain]
  exact ((literals_sublist_of_covers hcov).map _).trans hliterals

end Template

/-! ## Confined states -/

namespace LearnerState

open Template

variable {s : LearnerState} {inputs below : List Template} {parent child p t : Template}

/-- Merged templates have separate slots and nothing else but what some input has in this order, and all
that is active is known. -/
structure Confined (inputs : List Template) (s : LearnerState) : Prop where
  separate : ∀ p, s.children.contains p = true → Separate p.tokens
  within : ∀ p, s.children.contains p = true → ∃ u ∈ inputs, p.lasting.Sublist u.lasting
  active : ∀ t, s.active.contains t = true → s.Known inputs t

theorem confined_ofTemplates (inputs : List Template) : (ofTemplates inputs).Confined inputs where
  separate p hp := by simp [ofTemplates] at hp
  within p hp := by simp [ofTemplates] at hp
  active := (sound_ofTemplates inputs).active

theorem Confined.within_of_known (h : s.Confined inputs) (ht : s.Known inputs t) :
    ∃ u ∈ inputs, t.lasting.Sublist u.lasting := by
  rcases ht with ⟨u, hu, hut⟩ | ht
  · exact ⟨u, hu, by rw [lasting_congr hut]⟩
  · exact h.within t ht

/-- **Recording a merge keeps a state confined.** -/
theorem Confined.addParent (h : s.Confined inputs) (hsep : Separate parent.tokens)
    (hparent : ∃ u ∈ inputs, parent.lasting.Sublist u.lasting) (below : List Template) :
    (s.addParent parent below).Confined inputs where
  separate p hp := by
    rw [contains_children_addParent, Bool.or_eq_true] at hp
    rcases hp with hp | hp
    · exact h.separate p hp
    · exact (separate_congr hp).1 hsep
  within p hp := by
    rw [contains_children_addParent, Bool.or_eq_true] at hp
    rcases hp with hp | hp
    · exact h.within p hp
    · rwa [← lasting_congr hp]
  active t ht := by
    rw [known_addParent]
    exact (contains_active_addParent.1 ht).1.imp (h.active t) And.right

theorem Sound.confined (h : s.Sound inputs) : s.Confined inputs where
  separate p hp := (h.plain p hp).1.separate
  within p hp := by
    obtain ⟨u, hu, hcov⟩ := h.general p hp
    exact ⟨u, hu, (h.plain p hp).1.lasting_sublist_of_covers hcov⟩
  active := h.active

/-! ### The number of merged templates -/

/-- The number of tokens of all inputs. -/
def totalLength (inputs : List Template) : Nat := (inputs.flatMap Template.tokens).length

/-- More templates than can be merged from inputs. -/
def mergeBound (inputs : List Template) : Nat :=
  (totalLength inputs + 2) ^ (2 * totalLength inputs + 2)

/-- The letters of forms: a slot without a number, and the tokens of the inputs. -/
def letters (inputs : List Template) : List Token :=
  .slot (.anonymous 0) :: inputs.flatMap Template.tokens

theorem length_le_totalLength {u : Template} (hu : u ∈ inputs) : u.length ≤ totalLength inputs :=
  (List.sublist_flatten_of_mem (List.mem_map_of_mem hu)).length_le

theorem Confined.mem_letters (h : s.Confined inputs) (hp : s.children.contains p = true) :
    ∀ k ∈ p.form, k ∈ letters inputs := by
  intro k hk
  obtain ⟨u, hu, hsub⟩ := h.within p hp
  rcases mem_form_cases hk with rfl | hlasts
  · exact List.mem_cons_self
  · have hin : k ∈ u.tokens := (List.mem_filter.1 (hsub.subset hlasts)).1
    exact .tail _ (List.mem_flatMap.2 ⟨u, hu, hin⟩)

theorem Confined.length_form_le (h : s.Confined inputs) (hp : s.children.contains p = true) :
    p.form.length ≤ 2 * totalLength inputs + 2 := by
  obtain ⟨u, hu, hsub⟩ := h.within p hp
  have hform := Template.length_form_le (h.separate p hp)
  have hlasting := hsub.length_le.trans u.length_lasting_le
  have hinput := length_le_totalLength hu
  omega

/-- No two merged templates have the same form. -/
theorem nodup_form_children (s : LearnerState) : (s.children.keys.map form).Nodup := by
  rw [OrderedMap.keys, List.map_map]
  refine List.pairwise_map.2 (s.children.distinct.imp fun {e f} hne heq => ?_)
  simp [beq_iff.2 heq] at hne

/-- **The merged templates of a confined state are bounded in number.** -/
theorem Confined.size_children_le (h : s.Confined inputs) :
    s.children.size ≤ mergeBound inputs := by
  have hlen : ∀ w ∈ s.children.keys.map form, w.length ≤ 2 * totalLength inputs + 2 :=
    List.forall_mem_map.2 fun p hp => h.length_form_le (OrderedMap.contains_of_mem_keys hp)
  have hmem : ∀ w ∈ s.children.keys.map form, ∀ k ∈ w, k ∈ letters inputs :=
    List.forall_mem_map.2 fun p hp => h.mem_letters (OrderedMap.contains_of_mem_keys hp)
  have hle := length_le_of_nodup_words s.nodup_form_children hlen hmem
  rwa [List.length_map, OrderedMap.length_keys] at hle

end LearnerState

/-! ## Progress within bounds -/

namespace Learner

open Template

variable {learner : Learner} {first second merged : Template} {inputs : List Template} {supply : Nat}
  {s : LearnerState} {c top : Candidate} {rest : List Candidate} {p : Progress}

theorem separate_of_mem_possibleMerges (hmin : learner.minimalVariables = true)
    (h : merged ∈ (learner.possibleMerges first second supply).1) : Separate merged.tokens := by
  obtain ⟨_, _, h⟩ | ⟨id, rfl⟩ := mem_possibleMerges_cases h
  · exact separate_of_mem_merges hmin h
  · exact List.isChain_singleton _

theorem lasting_sublist_of_mem_possibleMerges
    (h : merged ∈ (learner.possibleMerges first second supply).1) :
    merged.lasting.Sublist first.lasting := by
  obtain ⟨_, _, h⟩ | ⟨id, rfl⟩ := mem_possibleMerges_cases h
  · exact (lasting_sublist_of_mem_merges h).1
  · exact List.nil_sublist _

/-- The merge of a proper candidate of known templates keeps a state confined. -/
theorem confined_addParent_mergeOf (hmin : learner.minimalVariables = true) (hs : s.Confined inputs)
    (hc : learner.Proper c) (hknown : ∀ t ∈ [c.first, c.second], s.Known inputs t) (supply : Nat) :
    (s.addParent (learner.mergeOf c supply).1 [c.first, c.second]).Confined inputs := by
  obtain ⟨supply', hmem⟩ := hc.mergeOf_mem supply
  obtain ⟨u, hu, hsub⟩ := hs.within_of_known (hknown c.first List.mem_cons_self)
  exact hs.addParent (separate_of_mem_possibleMerges hmin hmem)
    ⟨u, hu, (lasting_sublist_of_mem_possibleMerges hmem).trans hsub⟩ _

/-- A confined state, and a queue of proper candidates. -/
structure Progress.Confined (learner : Learner) (inputs : List Template) (p : Progress) : Prop where
  state : p.state.Confined inputs
  queue : ∀ c ∈ p.queue, learner.Proper c

theorem Progress.Sound.confined (h : p.Sound learner inputs) : p.Confined learner inputs :=
  ⟨h.state.confined, h.queue⟩

theorem confined_start (learner : Learner) (templates : List Template) (supply : Nat) :
    (learner.start templates supply).Confined learner templates where
  state := LearnerState.confined_ofTemplates templates
  queue := (sound_start learner templates supply).queue

/-- **A round on valid candidates keeps progress confined.** -/
theorem Progress.Confined.round (h : p.Confined learner inputs) (hmin : learner.minimalVariables = true)
    (hqueue : ∀ c ∈ top :: rest, c ∈ p.queue) (htop : p.state.isValid top = true) :
    (learner.round p top rest).Confined learner inputs where
  state := state_round_induct
    (fun _ _ supply hs hc hknown => confined_addParent_mergeOf hmin hs hc hknown supply)
    h.state h.state.active h.queue hqueue htop
  queue _ := proper_of_mem_queue_round h.queue hqueue

end Learner

end GrammarInduction
