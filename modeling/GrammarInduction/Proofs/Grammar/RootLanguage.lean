import GrammarInduction.Proofs.Grammar.ReadOff
import Mathlib.Data.List.Basic

/-!
# The language of a grammar read off

A grammar read off a root template and slot values derives from its start the literals that the root
derives by the values, if the name of the start is free.

* `Yields.subst`: what tokens yield is kept when tokens are put in place of slots, as long as each slot's
  tokens yield what its productions yield.
* `mem_productions_ofValues`: the productions of the grammar are the values of slots, a slot itself left
  out, under the names that the slots go by (`calledBy`), and the root template for the start.
* `home` leads back from the names: the start stands for the root template, and any other slot for itself.
* `readOff_language`: a free name is one that has no values. Then the start derives all that the root
  derives, and nothing else if no value mentions the name.
* `readOff_captures`: if it is not free, texts are lost, or new ones come in.
-/

namespace GrammarInduction

variable {f g : Slot → List Template} {x : List Token} {w : List String} {s : Slot}

/-! ## Tokens in place of slots -/

/-- A token, or the tokens in place of the slot in it. -/
def substToken (σ : Slot → List Token) : Token → List Token
  | .literal text => [.literal text]
  | .slot s => σ s

/-- Tokens yield what they have yielded with tokens in place of slots, if for each production of a slot
the tokens in place of the slot do. -/
theorem Yields.subst {σ : Slot → List Token} (h : Yields f x w)
    (hσ : ∀ s, ∀ t ∈ f s, ∀ u, Yields g (t.tokens.flatMap (substToken σ)) u → Yields g (σ s) u) :
    Yields g (x.flatMap (substToken σ)) w := by
  induction h with
  | nil => exact .nil
  | literal text _ ih => exact .literal text ih
  | slot ht _ _ ihu ihw => exact (hσ _ _ ht _ ihu).append ihw

/-- All slots of tokens that yield something have productions. -/
theorem Yields.ne_nil_of_mem (h : Yields f x w) (hs : .slot s ∈ x) : f s ≠ [] := by
  induction h with
  | nil => cases hs
  | literal text _ ih => exact ih ((List.mem_cons.1 hs).resolve_left Token.noConfusion)
  | slot ht _ _ _ ih =>
    rcases List.mem_cons.1 hs with heq | hs
    · obtain rfl := Token.slot.inj heq
      exact List.ne_nil_of_mem ht
    · exact ih hs

namespace Grammar

open SlotValues

variable {root t : Template} {v : SlotValues} {k : Slot}

/-! ## From the start back to the root -/

/-- Productions are values of slots under the names that the slots go by, and the root template. -/
theorem mem_productions_ofValues (hfresh : v.replacements = .empty)
    (ht : t ∈ (ofValues root v).productions s) :
    s = origin ∧ t = root ∨
      ∃ k, calledBy root k = s ∧ ∃ u ∈ properValues v k, t = u.rename (rootNames root) := by
  obtain ⟨ps, hrule, ht⟩ := exists_rule_of_mem_productions ht
  have hcases := get?_ofValues_cases (OrderedMap.get?_eq_some_iff.2 hrule)
  rcases hcases with ⟨hs, rfl, -⟩ | ⟨k, qs, hk, hqs, rfl⟩
  · exact .inl ⟨hs, List.mem_singleton.1 ht⟩
  · obtain ⟨u, hu, rfl⟩ := List.mem_map.1 ht
    exact .inr ⟨k, hk, u, eq_properValues_of_get? hfresh hqs ▸ hu, rfl⟩

/-- What a slot of the grammar stands for by the values: the start for the root template, and any other
slot for itself. -/
def home (root : Template) (s : Slot) : List Token := if s = origin then root.tokens else [.slot s]

/-- A slot stands for itself under the name that it goes by, if it does not have the name of the
start. -/
theorem home_calledBy (hk : root = .ofSlot origin ∨ k ≠ origin) :
    home root (calledBy root k) = [.slot k] := by
  cases hsingle : root.single? with
  | none =>
    have hne : k ≠ origin := hk.resolve_left fun h => by simp [h] at hsingle
    rw [calledBy_of_none hsingle, home, if_neg hne]
  | some slot =>
    obtain rfl := Template.eq_ofSlot_of_single? hsingle
    rw [calledBy_of_some hsingle]
    by_cases heq : slot = k
    · rw [if_pos heq, home, if_pos rfl, heq]
      rfl
    · rw [if_neg heq, home]
      refine if_neg fun horigin => ?_
      rcases hk with hroot | hk
      · exact heq ((Token.slot.inj (List.singleton_inj.1 (congrArg Template.tokens hroot))).trans
          horigin.symm)
      · exact hk horigin

/-- Slots that stand for themselves leave a template as it is. -/
theorem subst_eq_self {σ : Slot → List Token} (h : ∀ s ∈ t.slots, σ s = [.slot s]) :
    t.tokens.flatMap (substToken σ) = t.tokens := by
  have htoken : ∀ k ∈ t.tokens, substToken σ k = [k] := by
    intro k hk
    cases k with
    | literal text => rfl
    | slot s => exact h s (Template.mem_slots_iff.2 hk)
  rw [List.flatMap_congr htoken, List.flatMap_singleton']

/-- A template without the name of the start stays as it is. -/
theorem subst_home (ht : root = .ofSlot origin ∨ origin ∉ t.slots) :
    t.tokens.flatMap (substToken (home root)) = t.tokens := by
  refine subst_eq_self fun s hs => ?_
  rw [home]
  split
  next horigin =>
    subst horigin
    rw [ht.resolve_right (not_not_intro hs)]
    rfl
  · rfl

/-- The names that the slots of a template go by lead back to the template, if none of the slots has the
name of the start. -/
theorem subst_home_rename (ht : root = .ofSlot origin ∨ origin ∉ t.slots) :
    (t.rename (rootNames root)).tokens.flatMap (substToken (home root)) = t.tokens := by
  have hnames : (t.rename (rootNames root)).tokens.flatMap (substToken (home root)) =
      t.tokens.flatMap (substToken fun s => home root (calledBy root s)) := by
    rw [Template.rename, List.flatMap_map]
    refine List.flatMap_congr fun k _ => ?_
    cases k <;> rfl
  rw [hnames]
  refine subst_eq_self fun s hs => home_calledBy (ht.imp_right fun horigin => ?_)
  rintro rfl
  exact horigin hs

theorem not_mem_sets_of_not_key (h : v.contains s = false) : t ∉ v.sets s := fun ht =>
  Bool.noConfusion (h.symm.trans (contains_of_mem_sets ht))

/-- **What the start yields is what the root template yields**, if the name of the start has no values of
its own and no value mentions it. -/
theorem yields_root_of_start (hfresh : v.replacements = .empty)
    (hfree : root = .ofSlot origin ∨ v.contains origin = false)
    (hvalues : root = .ofSlot origin ∨ ∀ s, ∀ t ∈ v.sets s, origin ∉ t.slots)
    (h : Yields (ofValues root v).productions [.slot (ofValues root v).start] w) :
    Yields v.sets root.tokens w := by
  have hhome : [.slot origin].flatMap (substToken (home root)) = root.tokens := by
    simp [substToken, home]
  rw [start_ofValues] at h
  rw [← hhome]
  refine h.subst fun s t ht u hu => ?_
  rcases mem_productions_ofValues hfresh ht with ⟨rfl, rfl⟩ | ⟨k, rfl, value, hvalue, rfl⟩
  · rw [home, if_pos rfl]
    by_cases hmentions : origin ∈ t.slots
    · -- a root that mentions the start yields nothing, unless it is nothing else
      rcases hfree with rfl | horigin
      · rwa [subst_home (.inl rfl)] at hu
      · have hsets : v.sets origin ≠ [] := by
          refine hu.ne_nil_of_mem (List.mem_flatMap.2 ⟨_, Template.mem_slots_iff.1 hmentions, ?_⟩)
          rw [substToken, home, if_pos rfl]
          exact Template.mem_slots_iff.1 hmentions
        obtain ⟨value, hvalue⟩ := List.exists_mem_of_ne_nil _ hsets
        exact absurd hvalue (not_mem_sets_of_not_key horigin)
    · rwa [subst_home (.inr hmentions)] at hu
  · have hsets := (mem_properValues.1 hvalue).1
    have hk : root = .ofSlot origin ∨ k ≠ origin := by
      refine hfree.imp_right fun horigin => ?_
      rintro rfl
      exact not_mem_sets_of_not_key horigin hsets
    rw [home_calledBy hk]
    rw [subst_home_rename (hvalues.imp_right fun h => h k value hsets)] at hu
    exact yields_slot_iff.2 ⟨value, hsets, hu⟩

/-! ## The language -/

/-- **The language of a grammar read off.** Let the name of the start have no values, unless it is the
root template. Then the start derives all literals that the root template derives by the values, and if
no value mentions that name, it derives no others. -/
theorem readOff_language (root : Template) {v : SlotValues} (hfresh : v.replacements = .empty)
    (hfree : root = .ofSlot origin ∨ v.contains origin = false) :
    (∀ w : List String, Derives v.sets root.tokens (w.map .literal) →
      Derives (ofValues root v).productions [.slot (ofValues root v).start] (w.map .literal)) ∧
    ((root = .ofSlot origin ∨ ∀ s, ∀ t ∈ v.sets s, origin ∉ t.slots) → ∀ w : List String,
      Derives (ofValues root v).productions [.slot (ofValues root v).start] (w.map .literal) ↔
        Derives v.sets root.tokens (w.map .literal)) := by
  have hliterals (w : List String) :
      (w.map .literal).map (Template.renameToken (rootNames root)) = w.map .literal := by
    simp [Template.renameToken]
  have hcomplete : ∀ w : List String, Derives v.sets root.tokens (w.map .literal) →
      Derives (ofValues root v).productions [.slot (ofValues root v).start] (w.map .literal) :=
    fun w h => hliterals w ▸ derives_of_root hfresh hfree h
  refine ⟨hcomplete, fun hvalues w => ⟨fun h => ?_, hcomplete w⟩⟩
  exact (yields_root_of_start hfresh hfree hvalues (derives_iff_yields.1 h)).derives

/-- A greeting of whatever a slot stands for. -/
def greeting (s : Slot) : Template := ⟨[.literal "hello", .slot s]⟩

/-- Names: the slot is a value of itself, and stands in a longer value. -/
def nestedNames : SlotValues :=
  .ofPairs [(.named "name", ⟨[.literal "dear", .slot (.named "name")]⟩),
    (.named "name", .ofSlot (.named "name")), (.named "name", ⟨[.literal "you"]⟩)]

/-- The start derives a greeting that goes twice through the slot of names. -/
theorem readOff_language_of_nestedNames :
    nestedNames.replacements = .empty ∧ nestedNames.contains origin = false ∧
    (∀ s, ∀ t ∈ nestedNames.sets s, origin ∉ t.slots) ∧
    Derives (ofValues (greeting (.named "name")) nestedNames).productions
      [.slot (ofValues (greeting (.named "name")) nestedNames).start]
      (["hello", "dear", "you"].map .literal) ∧
    ∀ w : List String, Derives (ofValues (greeting (.named "name")) nestedNames).productions
        [.slot (ofValues (greeting (.named "name")) nestedNames).start] (w.map .literal) ↔
      Derives nestedNames.sets (greeting (.named "name")).tokens (w.map .literal) := by
  have hkey : nestedNames.contains origin = false := by decide +kernel
  have hvalues : ∀ s, ∀ t ∈ nestedNames.sets s, origin ∉ t.slots := by
    have hover : nestedNames.Over (· ≠ origin) := SlotValues.over_of_entries rfl (by decide +kernel)
    exact fun s t ht horigin => hover.values s t ht origin horigin rfl
  obtain ⟨hcomplete, hexact⟩ :=
    readOff_language (greeting (.named "name")) (v := nestedNames) rfl (.inr hkey)
  have hderives : Yields nestedNames.sets (greeting (.named "name")).tokens
      ["hello", "dear", "you"] := by
    refine .literal "hello" (yields_slot_iff.2
      ⟨⟨[.literal "dear", .slot (.named "name")]⟩, List.mem_of_getElem? (i := 0) (by decide), ?_⟩)
    exact .literal "dear" (yields_slot_iff.2
      ⟨⟨[.literal "you"]⟩, List.mem_of_getElem? (i := 2) (by decide), .literal "you" .nil⟩)
  exact ⟨rfl, hkey, hvalues, hcomplete _ hderives.derives, hexact (.inr hvalues)⟩

/-- The name of the start has a value. -/
def keptName : SlotValues := .ofPairs [(origin, ⟨[.literal "you"]⟩)]

/-- A value mentions the name of the start, which has no values. -/
def mentionedName : SlotValues :=
  .ofPairs [(.named "name", ⟨[.literal "dear", .slot origin]⟩), (.named "name", ⟨[.literal "you"]⟩)]

/-- A rule for the name of the start takes the place of the root template. -/
theorem not_derives_of_keptName : ¬ Derives (ofValues (greeting origin) keptName).productions
    [.slot (ofValues (greeting origin) keptName).start] (["hello", "you"].map .literal) := by
  intro h
  have hstart : (ofValues (greeting origin) keptName).productions
      (ofValues (greeting origin) keptName).start = [⟨[.literal "you"]⟩] := by decide +kernel
  rw [derives_iff_yields, yields_slot_iff, hstart] at h
  obtain ⟨t, ht, h⟩ := h
  rw [List.mem_singleton.1 ht] at h
  obtain ⟨w, heq, -⟩ := yields_literal_cons_iff.1 h
  exact absurd (List.cons.inj heq).1 (by decide)

/-- A mention of the name of the start leads back to the root template. -/
theorem derives_of_mentionedName :
    Derives (ofValues (greeting (.named "name")) mentionedName).productions
      [.slot (ofValues (greeting (.named "name")) mentionedName).start]
      (["hello", "dear", "hello", "you"].map .literal) := by
  generalize hg : ofValues (greeting (.named "name")) mentionedName = g
  have hstart : greeting (.named "name") ∈ g.productions g.start := by
    rw [← hg]
    exact List.mem_of_getElem? (i := 0) (by decide +kernel)
  have hname : g.productions (.named "name") =
      [⟨[.literal "dear", .slot g.start]⟩, ⟨[.literal "you"]⟩] := by
    rw [← hg]
    decide +kernel
  have hyou : Yields g.productions [.slot (.named "name")] ["you"] :=
    yields_slot_iff.2 ⟨_, hname ▸ List.mem_of_getElem? (i := 1) rfl, .literal "you" .nil⟩
  have hinner : Yields g.productions [.slot g.start] ["hello", "you"] :=
    yields_slot_iff.2 ⟨_, hstart, .literal "hello" hyou⟩
  have hdear : Yields g.productions [.slot (.named "name")] ["dear", "hello", "you"] :=
    yields_slot_iff.2 ⟨_, hname ▸ List.mem_of_getElem? (i := 0) rfl, .literal "dear" hinner⟩
  exact (yields_slot_iff.2 ⟨_, hstart, .literal "hello" hdear⟩).derives

/-- **The name of the start can be captured.** If it has values, the start loses what the root template
derives; if a value mentions it, the start derives what the root template does not. -/
theorem readOff_captures :
    ((greeting origin).Over Named ∧ keptName.Over Named ∧ keptName.replacements = .empty ∧
      Derives keptName.sets (greeting origin).tokens (["hello", "you"].map .literal) ∧
      ¬ Derives (ofValues (greeting origin) keptName).productions
        [.slot (ofValues (greeting origin) keptName).start] (["hello", "you"].map .literal)) ∧
    ((greeting (.named "name")).Over Named ∧ mentionedName.Over Named ∧
      mentionedName.replacements = .empty ∧
      ¬ Derives mentionedName.sets (greeting (.named "name")).tokens
        (["hello", "dear", "hello", "you"].map .literal) ∧
      Derives (ofValues (greeting (.named "name")) mentionedName).productions
        [.slot (ofValues (greeting (.named "name")) mentionedName).start]
        (["hello", "dear", "hello", "you"].map .literal)) := by
  refine ⟨⟨by decide, SlotValues.over_of_entries rfl (by decide +kernel), rfl, ?_, not_derives_of_keptName⟩,
    ⟨by decide, SlotValues.over_of_entries rfl (by decide +kernel), rfl, fun h => ?_,
      derives_of_mentionedName⟩⟩
  · refine (Yields.literal "hello" (yields_slot_iff.2 ⟨⟨[.literal "you"]⟩, ?_,
      .literal "you" .nil⟩)).derives
    exact List.mem_of_getElem? (i := 0) (by decide)
  · rw [derives_iff_yields] at h
    obtain ⟨w, heq, h⟩ := yields_literal_cons_iff.1 h
    obtain ⟨t, ht, h⟩ := yields_slot_iff.1 h
    have hsets : mentionedName.sets (.named "name") =
        [⟨[.literal "dear", .slot origin]⟩, ⟨[.literal "you"]⟩] := by decide
    rw [hsets] at ht
    rcases List.mem_cons.1 ht with rfl | ht
    · -- the name of the start has no values
      exact h.ne_nil_of_mem (s := origin) (by decide) (by decide)
    · rw [List.mem_singleton.1 ht] at h
      obtain ⟨w', rfl, -⟩ := yields_literal_cons_iff.1 h
      exact absurd (List.cons.inj (List.cons.inj heq).2).1 (by decide)

end Grammar

end GrammarInduction
