import GrammarInduction.Learner.State
import GrammarInduction.Proofs.Template.Merging
import Mathlib.Logic.Relation

/-!
# The invariant of learning

`LearnerState.Under s p c` says that `c` was put under the merged template `p`. A state is sound for
a list of inputs (`LearnerState.Sound`) if merged templates are plain, have slots, and strictly
cover what is under them, and if every known template is active or under some merged one.

* `Sound.addParent`: recording a merge of two different known templates keeps a state sound.
* `Sound.exists_active_above`: from every known template the parents lead up to an active one. The
  ranks of plain templates see to it that the way ends.
-/

namespace GrammarInduction

namespace LearnerState

variable {s : LearnerState} {p c t u x parent child first second : Template}
  {inputs below : List Template}

/-! ## What is under a merged template -/

/-- `c` was put under the merged template `p`. -/
def Under (s : LearnerState) (p c : Template) : Prop :=
  ∃ below, s.children.get? p = some below ∧ below.contains c = true

theorem Under.congr (h : s.Under p c) (hp : (p == t) = true) (hc : (c == u) = true) :
    s.Under t u := by
  obtain ⟨below, hbelow, hmem⟩ := h
  exact ⟨below, (s.children.get?_congr hp).symm.trans hbelow,
    (OrderedSet.contains_congr hc).symm.trans hmem⟩

theorem Under.contains (h : s.Under p c) : s.children.contains p = true := by
  obtain ⟨below, hbelow, -⟩ := h
  rw [OrderedMap.contains_eq_isSome, hbelow]
  rfl

theorem contains_children_congr (s : LearnerState) (h : (p == t) = true) :
    s.children.contains p = s.children.contains t := by
  rw [OrderedMap.contains_eq_isSome, OrderedMap.contains_eq_isSome, s.children.get?_congr h]

/-! ## Recording a child -/

theorem addChild_of_beq (h : (child == parent) = true) : addChild parent s child = s := by
  simp [addChild, h]

theorem addChild_of_ne (h : (child == parent) = false) :
    addChild parent s child =
      ⟨s.active.erase child,
        s.children.update parent fun known => (known.getD .empty).insert child⟩ := by
  simp [addChild, h]

theorem contains_active_addChild :
    (addChild parent s child).active.contains x =
      (s.active.contains x && (child == parent || !(x == child))) := by
  cases h : child == parent with
  | true => simp [addChild_of_beq h]
  | false => simp [addChild_of_ne h, OrderedSet.contains_erase]

theorem contains_children_addChild (hp : s.children.contains parent = true) :
    (addChild parent s child).children.contains x = s.children.contains x := by
  cases h : child == parent with
  | true => rw [addChild_of_beq h]
  | false =>
    rw [addChild_of_ne h, OrderedMap.contains_update, Bool.eq_iff_iff, Bool.or_eq_true]
    refine ⟨?_, .inl⟩
    rintro (hx | hx)
    · exact hx
    · rwa [← contains_children_congr s hx]

theorem under_addChild :
    (addChild parent s child).Under p c ↔
      s.Under p c ∨ ((child == parent) = false ∧ (parent == p) = true ∧ (child == c) = true) := by
  cases h : child == parent with
  | true => simp [addChild_of_beq h]
  | false =>
    rw [addChild_of_ne h]
    simp only [Under, OrderedMap.get?_update, true_and]
    by_cases hp : (parent == p) = true
    · rw [if_pos hp]
      simp only [Option.some.injEq, exists_eq_left', OrderedSet.contains_insert, Bool.or_eq_true,
        hp, true_and, s.children.get?_congr hp]
      apply or_congr_left
      cases s.children.get? p <;> simp
    · simp [hp]

theorem under_foldl_addChild :
    (below.foldl (addChild parent) s).Under p c ↔
      s.Under p c ∨
        ((parent == p) = true ∧ ∃ t ∈ below, (t == parent) = false ∧ (t == c) = true) := by
  induction below generalizing s with
  | nil => simp
  | cons t below ih =>
    rw [List.foldl_cons, ih, under_addChild]
    simp only [List.mem_cons, exists_eq_or_imp]
    tauto

theorem contains_children_foldl_addChild (hp : s.children.contains parent = true) :
    (below.foldl (addChild parent) s).children.contains x = s.children.contains x := by
  induction below generalizing s with
  | nil => rfl
  | cons t below ih =>
    rw [List.foldl_cons, ih (by rwa [contains_children_addChild hp]),
      contains_children_addChild hp]

theorem contains_active_foldl_addChild :
    (below.foldl (addChild parent) s).active.contains x = true ↔
      s.active.contains x = true ∧ ∀ t ∈ below, (t == parent) = true ∨ (x == t) = false := by
  induction below generalizing s with
  | nil => simp
  | cons t below ih =>
    rw [List.foldl_cons, ih, contains_active_addChild]
    simp [and_assoc]

/-! ## Recording a merge -/

/-- A state in which a template is a parent, active if it is a new one. -/
def withParent (s : LearnerState) (parent : Template) : LearnerState :=
  if s.children.contains parent then s
  else { active := s.active.insert parent, children := s.children.insert parent .empty }

theorem addParent_eq (s : LearnerState) (parent : Template) (below : List Template) :
    s.addParent parent below = below.foldl (addChild parent) (s.withParent parent) := rfl

theorem contains_children_withParent :
    (s.withParent parent).children.contains x = (s.children.contains x || parent == x) := by
  unfold withParent
  split
  next h =>
    rw [Bool.eq_iff_iff, Bool.or_eq_true]
    refine ⟨.inl, ?_⟩
    rintro (hx | hx)
    · exact hx
    · rwa [← contains_children_congr s hx]
  · rw [OrderedMap.contains_insert]

theorem contains_active_withParent :
    (s.withParent parent).active.contains x =
      (s.active.contains x || (!s.children.contains parent && parent == x)) := by
  unfold withParent
  split
  next h => simp [h]
  next h => simp [h, OrderedSet.contains_insert]

theorem under_withParent : (s.withParent parent).Under p c ↔ s.Under p c := by
  unfold withParent
  split
  · rfl
  next h =>
    simp only [Under, OrderedMap.get?_insert]
    by_cases hp : (parent == p) = true
    · have hnone : s.children.get? p = none := by
        rw [← s.children.get?_congr hp]
        simpa [OrderedMap.contains_eq_isSome] using h
      simp [hp, hnone]
    · simp [hp]

theorem contains_children_addParent :
    (s.addParent parent below).children.contains x = (s.children.contains x || parent == x) := by
  rw [addParent_eq, contains_children_foldl_addChild, contains_children_withParent]
  simp [contains_children_withParent]

theorem under_addParent :
    (s.addParent parent below).Under p c ↔
      s.Under p c ∨
        ((parent == p) = true ∧ ∃ t ∈ below, (t == parent) = false ∧ (t == c) = true) := by
  rw [addParent_eq, under_foldl_addChild, under_withParent]

theorem contains_active_addParent :
    (s.addParent parent below).active.contains x = true ↔
      (s.active.contains x = true ∨ (s.children.contains parent = false ∧ (parent == x) = true)) ∧
        ∀ t ∈ below, (t == parent) = true ∨ (x == t) = false := by
  rw [addParent_eq, contains_active_foldl_addChild, contains_active_withParent]
  simp

/-! ## Sound states -/

/-- An input, or a merged template. -/
def Known (s : LearnerState) (inputs : List Template) (t : Template) : Prop :=
  (∃ u ∈ inputs, (u == t) = true) ∨ s.children.contains t = true

theorem Known.congr (h : s.Known inputs t) (htu : (t == u) = true) : s.Known inputs u := by
  rcases h with ⟨v, hv, hvt⟩ | h
  · exact .inl ⟨v, hv, BEq.trans hvt htu⟩
  · exact .inr (contains_children_congr s htu ▸ h)

/-- Merged templates generalise what is under them, and every known template is active or under a
merged one. -/
structure Sound (inputs : List Template) (s : LearnerState) : Prop where
  plain : ∀ p, s.children.contains p = true → p.IsPlain ∧ p.hasSlots = true
  covers : ∀ p c, s.Under p c → p.covers c = true ∧ (p == c) = false
  known : ∀ p c, s.Under p c → s.Known inputs c
  inhabited : ∀ p, s.children.contains p = true → ∃ c, s.Under p c
  general : ∀ p, s.children.contains p = true → ∃ u ∈ inputs, p.covers u = true
  connected : ∀ t, s.Known inputs t → s.active.contains t = true ∨ ∃ p, s.Under p t
  active : ∀ t, s.active.contains t = true → s.Known inputs t

theorem under_empty_iff {active : OrderedSet Template} :
    (⟨active, .empty⟩ : LearnerState).Under p c ↔ False := by
  simp [Under]

/-- At the start all inputs are active. -/
theorem sound_ofTemplates (inputs : List Template) : Sound inputs (ofTemplates inputs) := by
  have hknown : ∀ t, (ofTemplates inputs).Known inputs t ↔ ∃ u ∈ inputs, (u == t) = true := by
    simp [Known, ofTemplates]
  have hactive : ∀ t, (ofTemplates inputs).active.contains t = true ↔
      ∃ u ∈ inputs, (u == t) = true := by
    simp [ofTemplates, OrderedSet.contains_ofList]
  refine ⟨?_, fun p c h => ?_, fun p c h => ?_, ?_, ?_, fun t ht => ?_, fun t ht => ?_⟩
  · simp [ofTemplates]
  · exact (under_empty_iff.1 h).elim
  · exact (under_empty_iff.1 h).elim
  · simp [ofTemplates]
  · simp [ofTemplates]
  · exact .inl ((hactive t).2 ((hknown t).1 ht))
  · exact (hknown t).2 ((hactive t).1 ht)

/-- Known templates are plain if the inputs are. -/
theorem Sound.plain_of_known (h : Sound inputs s) (hinputs : ∀ u ∈ inputs, u.IsPlain)
    (ht : s.Known inputs t) : t.IsPlain := by
  rcases ht with ⟨u, hu, hut⟩ | ht
  · exact (hinputs u hu).congr hut
  · exact (h.plain t ht).1

/-- Every known template covers an input. -/
theorem Sound.exists_covered (h : Sound inputs s) (ht : s.Known inputs t) :
    ∃ u ∈ inputs, t.covers u = true := by
  rcases ht with ⟨u, hu, hut⟩ | ht
  · exact ⟨u, hu, Template.covers_congr_beq hut BEq.rfl ▸ Template.covers_refl u⟩
  · exact h.general t ht

theorem known_addParent :
    (s.addParent parent below).Known inputs t ↔ s.Known inputs t ∨ (parent == t) = true := by
  rw [Known, Known, contains_children_addParent, Bool.or_eq_true, or_assoc]

/-- What is active, or becomes so, stays active or comes under the parent. -/
theorem active_or_under_addParent
    (h : s.active.contains t = true ∨ (s.children.contains parent = false ∧ (parent == t) = true)) :
    (s.addParent parent below).active.contains t = true ∨
      (s.addParent parent below).Under parent t := by
  rw [contains_active_addParent, under_addParent]
  by_cases hall : ∀ u ∈ below, (u == parent) = true ∨ (t == u) = false
  · exact .inl ⟨h, hall⟩
  · simp only [not_forall, not_or, Bool.not_eq_true, Bool.not_eq_false] at hall
    obtain ⟨u, hu, hup, htu⟩ := hall
    exact .inr (.inr ⟨BEq.rfl, u, hu, hup, BEq.symm htu⟩)

/-- **Recording a merge keeps a state sound.** -/
theorem Sound.addParent (h : Sound inputs s) (hplain : parent.IsPlain)
    (hslots : parent.hasSlots = true) (hcovers : ∀ t ∈ [first, second], parent.covers t = true)
    (hknown : ∀ t ∈ [first, second], s.Known inputs t) (hne : (first == second) = false) :
    Sound inputs (s.addParent parent [first, second]) where
  plain p hp := by
    rw [contains_children_addParent, Bool.or_eq_true] at hp
    rcases hp with hp | hp
    · exact h.plain p hp
    · exact ⟨hplain.congr hp, Template.hasSlots_congr hp ▸ hslots⟩
  covers p c hpc := by
    rcases under_addParent.1 hpc with hpc | ⟨hp, t, ht, htp, htc⟩
    · exact h.covers p c hpc
    · refine ⟨Template.covers_congr_beq hp htc ▸ hcovers t ht, ?_⟩
      rw [← BEq.congr_left hp, ← BEq.congr_right htc, BEq.comm]
      exact htp
  known p c hpc := by
    rw [known_addParent]
    rcases under_addParent.1 hpc with hpc | ⟨-, t, ht, -, htc⟩
    · exact .inl (h.known p c hpc)
    · exact .inl ((hknown t ht).congr htc)
  inhabited p hp := by
    rw [contains_children_addParent, Bool.or_eq_true] at hp
    simp only [under_addParent]
    rcases hp with hp | hp
    · obtain ⟨c, hc⟩ := h.inhabited p hp
      exact ⟨c, .inl hc⟩
    · -- the two templates differ, so that one of them is not the parent
      by_cases hf : (first == parent) = true
      · have hs : (second == parent) = false := by
          rw [BEq.comm, ← BEq.congr_left hf]
          exact hne
        exact ⟨second, .inr ⟨hp, second, by simp, hs, BEq.rfl⟩⟩
      · exact ⟨first, .inr ⟨hp, first, by simp, by simpa using hf, BEq.rfl⟩⟩
  general p hp := by
    rw [contains_children_addParent, Bool.or_eq_true] at hp
    rcases hp with hp | hp
    · exact h.general p hp
    · obtain ⟨u, hu, hcov⟩ := h.exists_covered (hknown first (by simp))
      refine ⟨u, hu, Template.covers_congr_beq hp BEq.rfl ▸ ?_⟩
      exact Template.covers_trans (hcovers first (by simp)) hcov
  connected t ht := by
    have hold : s.Known inputs t → (s.addParent parent [first, second]).active.contains t = true ∨
        ∃ p, (s.addParent parent [first, second]).Under p t := by
      intro hk
      rcases h.connected t hk with ha | ⟨p, hp⟩
      · exact (active_or_under_addParent (.inl ha)).imp id fun hu => ⟨parent, hu⟩
      · exact .inr ⟨p, under_addParent.2 (.inl hp)⟩
    rcases known_addParent.1 ht with ht | ht
    · exact hold ht
    · by_cases hc : s.children.contains parent = true
      · exact hold (.inr (contains_children_congr s ht ▸ hc))
      · exact (active_or_under_addParent (.inr ⟨by simpa using hc, ht⟩)).imp id
          fun hu => ⟨parent, hu⟩
  active t ht := by
    rw [known_addParent]
    rcases (contains_active_addParent.1 ht).1 with ht | ⟨-, ht⟩
    · exact .inl (h.active t ht)
    · exact .inr ht

/-! ## Ways up -/

/-- One or more steps down. -/
def Above (s : LearnerState) : Template → Template → Prop := Relation.TransGen s.Under

theorem Above.congr_left (h : s.Above p c) (hp : (p == t) = true) : s.Above t c := by
  obtain ⟨u, hu, h⟩ := Relation.TransGen.head'_iff.1 h
  exact Relation.TransGen.head' (hu.congr hp BEq.rfl) h

theorem Sound.covers_of_above (h : Sound inputs s) (hpc : s.Above p c) : p.covers c = true := by
  induction hpc with
  | single h' => exact (h.covers _ _ h').1
  | tail _ h' ih => exact Template.covers_trans ih (h.covers _ _ h').1

theorem Sound.rank_lt (h : Sound inputs s) (hinputs : ∀ u ∈ inputs, u.IsPlain)
    (hpc : s.Under p c) : p.rank < c.rank := by
  obtain ⟨hcov, hne⟩ := h.covers p c hpc
  exact Template.rank_lt_of_covers (h.plain p hpc.contains).1
    (h.plain_of_known hinputs (h.known p c hpc)) hcov hne

/-- **From every known template the parents lead up to an active one.** -/
theorem Sound.exists_active_above (h : Sound inputs s) (hinputs : ∀ u ∈ inputs, u.IsPlain)
    (ht : s.Known inputs t) :
    ∃ r, s.active.contains r = true ∧ ((r == t) = true ∨ s.Above r t) := by
  induction hrank : t.rank using Nat.strongRecOn generalizing t with
  | ind n ih =>
    rcases h.connected t ht with hact | ⟨p, hp⟩
    · exact ⟨t, hact, .inl BEq.rfl⟩
    · have hlt := h.rank_lt hinputs hp
      obtain ⟨r, hr, hrp⟩ := ih p.rank (hrank ▸ hlt) (.inr hp.contains) rfl
      refine ⟨r, hr, .inr ?_⟩
      rcases hrp with hrp | hrp
      · exact .single (hp.congr (BEq.symm hrp) BEq.rfl)
      · exact hrp.tail hp

end LearnerState

end GrammarInduction
