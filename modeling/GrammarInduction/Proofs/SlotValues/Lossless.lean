import GrammarInduction.Proofs.SlotValues.Grading

/-!
# When merging loses no value

Merging loses no derivable sequence of literals if each slot, after its turn in a round, still
yields what it has gathered. That is so at a threshold of 1 or more if every slot has a value and
none comes back to itself through slots that are values (`derives_of_merge`). Otherwise values can
be lost (`merge_loses_values`): a slot that holds itself as a value provides that value for others
and gives it up later, and below 1 a slot that is replaced already can still take values in.
-/

namespace GrammarInduction

namespace SlotValues

variable {v m : SlotValues}

theorem sameMembers_of_similar {threshold : Float} (h : threshold ≥ 1.0)
    {first second : OrderedSet Template} (hs : similar threshold first second = true) :
    first.sameMembers second = true := by
  rwa [similar, if_pos h] at hs

/-- **When merging loses nothing.** Let all slots be named and none be replaced. If every slot still
yields what it has gathered after each of its turns, then whatever was derivable from a slot is
derivable from it after merging. Slots do so at a threshold of 1 or more if each has a value and
none comes back to itself through slots that are values. -/
theorem derives_of_merge {threshold : Float} (hnamed : v.Over Named)
    (hfresh : v.replacements = .empty) (hm : v.merge threshold = .ok m)
    (hkeeps : TurnsKeep (similar threshold) v ∨
      threshold ≥ 1.0 ∧ (∀ s ∈ v.slots, v.sets s ≠ []) ∧ v.Acyclic)
    (s : Slot) (w : List String) (h : Derives v.sets [.slot s] (w.map .literal)) :
    Derives m.sets [.slot s] (w.map .literal) := by
  have hturns : TurnsKeep (similar threshold) v := by
    rcases hkeeps with hturns | ⟨hexact, hfilled, hacyclic⟩
    · exact hturns
    · obtain ⟨rank, hlt⟩ := exists_rank_of_acyclic hacyclic
      exact turnsKeep_of_graded (fun _ _ => sameMembers_of_similar hexact)
        (graded_of_no_replacement hfresh hlt) hnamed
  have hstored : m.rules = m.sets := by
    unfold merge mergeBy at hm
    obtain ⟨_, -, hm⟩ := bind_eq_ok hm
    obtain ⟨_, -, hm⟩ := bind_eq_ok hm
    exact funext (stored_compressAll hm)
  have hstart : v.rules = v.sets := funext (rules_of_no_replacement hfresh)
  rw [derives_iff_yields, ← hstored]
  rw [derives_iff_yields, ← hstart] at h
  exact keeps_mergeBy hnamed hturns hm _ _ h

/-! ## Fixed slot values -/

/-- Slot values given by pairs of a slot and one of its values, `names` being the slots: a value
that is one of the names is a slot, any other is a literal. -/
def ofNames (names : List String) (pairs : List (String × String)) : SlotValues :=
  ofPairs <| pairs.map fun (name, value) =>
    (.named name, if names.contains value then .ofSlot (.named value) else ⟨[.literal value]⟩)

theorem acyclic_of_rank (rank : Slot → Nat)
    (h : ∀ s ∈ v.slots, ∀ k ∈ slotMembers (v.getD s), rank k < rank s) : v.Acyclic := by
  have hlt {s k : Slot} (hk : Relation.TransGen v.RefersTo s k) : rank k < rank s := by
    have hstep {s k : Slot} (hk : v.RefersTo s k) : rank k < rank s :=
      h s (mem_slots_of_sets_ne_nil (List.ne_nil_of_mem hk)) k (mem_slotMembers.2 hk)
    induction hk with
    | single hk => exact hstep hk
    | tail _ hk ih => exact Nat.lt_trans (hstep hk) ih
  exact fun s hs => Nat.lt_irrefl _ (hlt hs)

/-- Merging where the slots come in ascending order. -/
theorem mergeBy_of_sorted {alike : OrderedSet Template → OrderedSet Template → Bool}
    (h : v.slots.Pairwise (Slot.le · ·)) : v.mergeBy alike = (do
      let allowed := (v.slots.length + 1) * roundsPerSlot
      let settled ← settle alike v.slots v.slots allowed allowed v v.slots
      let compressed ← settled.compressAll
      (inlineAll compressed.size compressed.followAll).compressAll) := by
  rw [mergeBy, List.mergeSort_of_pairwise h]

theorem derives_through {s k : Slot} {text : String} (hs : .ofSlot k ∈ v.sets s)
    (hk : ⟨[.literal text]⟩ ∈ v.sets k) : Derives v.sets [.slot s] ([text].map .literal) := by
  rw [derives_iff_yields, yields_slot_iff]
  exact ⟨.ofSlot k, hs, yields_slot_iff.2 ⟨⟨[.literal text]⟩, hk, .literal text .nil⟩⟩

/-- Slots of which two have the same values. -/
def equalSlots : SlotValues :=
  ofNames ["A", "B", "C"] [("A", "C"), ("A", "x"), ("B", "y"), ("B", "z"), ("C", "z"), ("C", "y")]

theorem named_equalSlots : equalSlots.Over Named := over_of_entries rfl (by decide)

theorem acyclic_equalSlots : equalSlots.Acyclic :=
  acyclic_of_rank (fun s => if s = .named "A" then 1 else 0) (by decide)

/-- What the first slot derives through the third is kept when the third goes into the second. -/
theorem derives_of_merge_of_equalSlots :
    equalSlots.Over Named ∧ equalSlots.replacements = .empty ∧
      (1.0 : Float) ≥ 1.0 ∧ (∀ s ∈ equalSlots.slots, equalSlots.sets s ≠ []) ∧ equalSlots.Acyclic ∧
      ∃ m, equalSlots.merge 1.0 = .ok m ∧ m.isReplaced (.named "C") = true ∧
        Derives m.sets [.slot (.named "A")] (["y"].map .literal) := by
  have hexact : (1.0 : Float) ≥ 1.0 := by decide +kernel
  have hfilled : ∀ s ∈ equalSlots.slots, equalSlots.sets s ≠ [] := by decide
  have hderives : Derives equalSlots.sets [.slot (.named "A")] (["y"].map .literal) :=
    derives_through (k := .named "C") (List.mem_of_getElem? (i := 0) (by decide))
      (List.mem_of_getElem? (i := 1) (by decide))
  obtain ⟨m, hm, hreplaced⟩ : ∃ m, equalSlots.merge 1.0 = .ok m ∧
      m.isReplaced (.named "C") = true := by
    apply exists_of_toOption
    rw [merge, mergeBy_of_sorted (by decide)]
    decide +kernel
  exact ⟨named_equalSlots, rfl, hexact, hfilled, acyclic_equalSlots, m, hm, hreplaced,
    derives_of_merge named_equalSlots rfl hm (.inr ⟨hexact, hfilled, acyclic_equalSlots⟩) _ _ hderives⟩

/-- Slots of which one holds itself as a value. -/
def selfReference : SlotValues :=
  ofNames ["A", "B"] [("A", "B"), ("A", "x"), ("B", "B"), ("B", "y")]

/-- Slots of which one holds nothing but another slot. -/
def detour : SlotValues :=
  ofNames ["A", "B", "C"] [("A", "B"), ("B", "x"), ("B", "y"), ("C", "B"), ("C", "z")]

theorem not_derives_of_sets {s : Slot} {text : String} (values : List String)
    (hsets : v.sets s = values.map fun value => ⟨[.literal value]⟩) (h : text ∉ values) :
    ¬ Derives v.sets [.slot s] ([text].map .literal) := by
  rw [derives_iff_yields, yields_slot_iff, hsets]
  rintro ⟨t, ht, hy⟩
  obtain ⟨value, hvalue, rfl⟩ := List.mem_map.1 ht
  obtain ⟨w, heq, hw⟩ := yields_literal_cons_iff.1 hy
  rw [yields_nil_iff.1 hw] at heq
  obtain rfl : text = value := by simpa using heq
  exact h hvalue

theorem lost_through_self_reference :
    Derives selfReference.sets [.slot (.named "A")] (["y"].map .literal) ∧
      ∃ m, selfReference.merge 1.0 = .ok m ∧
        ¬ Derives m.sets [.slot (.named "A")] (["y"].map .literal) := by
  refine ⟨derives_through (k := .named "B") (List.mem_of_getElem? (i := 0) (by decide))
    (List.mem_of_getElem? (i := 1) (by decide)), ?_⟩
  obtain ⟨m, hm, hsets⟩ : ∃ m, selfReference.merge 1.0 = .ok m ∧
      m.sets (.named "A") = [⟨[.literal "x"]⟩] := by
    apply exists_of_toOption
    rw [merge, mergeBy_of_sorted (by decide)]
    decide +kernel
  exact ⟨m, hm, not_derives_of_sets ["x"] hsets (by decide)⟩

theorem lost_through_detour :
    Derives detour.sets [.slot (.named "C")] (["z"].map .literal) ∧
      ∃ m, detour.merge 0.3 = .ok m ∧
        ¬ Derives m.sets [.slot (.named "C")] (["z"].map .literal) := by
  constructor
  · rw [derives_iff_yields, yields_slot_iff]
    exact ⟨⟨[.literal "z"]⟩, List.mem_of_getElem? (i := 1) (by decide), .literal "z" .nil⟩
  obtain ⟨m, hm, hsets⟩ : ∃ m, detour.merge 0.3 = .ok m ∧
      (m.sets (.named "C"), m.sets (.named "B")) =
        ([.ofSlot (.named "B")], [⟨[.literal "x"]⟩, ⟨[.literal "y"]⟩]) := by
    apply exists_of_toOption
    rw [merge, mergeBy_of_sorted (by decide)]
    decide +kernel
  obtain ⟨hC, hB⟩ := Prod.mk.inj hsets
  refine ⟨m, hm, fun h => ?_⟩
  rw [derives_iff_yields, yields_slot_iff, hC] at h
  obtain ⟨t, ht, h⟩ := h
  rw [List.mem_singleton.1 ht] at h
  exact not_derives_of_sets ["x", "y"] hB (by decide) (derives_iff_yields.2 h)

/-- **Merging can lose values.** With a slot that holds itself as a value even the threshold 1 takes
a value away from a slot that refers to it. Below that threshold no such slot is needed. -/
theorem merge_loses_values :
    (selfReference.Over Named ∧ selfReference.replacements = .empty ∧
      Derives selfReference.sets [.slot (.named "A")] (["y"].map .literal) ∧
      ∃ m, selfReference.merge 1.0 = .ok m ∧
        ¬ Derives m.sets [.slot (.named "A")] (["y"].map .literal)) ∧
    (detour.Over Named ∧ detour.replacements = .empty ∧ detour.Acyclic ∧
      Derives detour.sets [.slot (.named "C")] (["z"].map .literal) ∧
      ∃ m, detour.merge 0.3 = .ok m ∧
        ¬ Derives m.sets [.slot (.named "C")] (["z"].map .literal)) := by
  refine ⟨⟨over_of_entries rfl ?_, rfl, lost_through_self_reference⟩,
    ⟨over_of_entries rfl ?_, rfl, ?_, lost_through_detour⟩⟩
  · unfold SetOver Template.Over
    decide
  · unfold SetOver Template.Over
    decide
  · exact acyclic_of_rank (fun s => if s = .named "B" then 0 else 1) (by decide)

end SlotValues

end GrammarInduction
