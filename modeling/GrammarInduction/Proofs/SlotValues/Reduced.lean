import GrammarInduction.Proofs.SlotValues.Exactness

/-!
# The replacements that merging leaves

Every write to slot values that replaces a slot gives the slot a value set, so that replaced slots
are keys (`Recorded`). Merging writes to keys alone and so keeps the keys in their order
(`KeysAre.mergeBy`); at its end every chain of replacements is a single step, and the set of a
replaced slot is what the table of replacements says (`reduced_of_merge`).
-/

namespace GrammarInduction

namespace SlotValues

variable {v v' m : SlotValues} {slot target container s k : Slot} {own : OrderedSet Template}
  {keys : List Slot} {alike : OrderedSet Template → OrderedSet Template → Bool}

/-! ## Replaced slots are keys -/

/-- Every replaced slot has a value set. -/
def Recorded (v : SlotValues) : Prop := ∀ s, v.isReplaced s = true → s ∈ v.slots

theorem recorded_empty : empty.Recorded := fun _ hs => by cases hs

theorem Recorded.insert (h : v.Recorded) (slot : Slot) (own : OrderedSet Template) :
    (v.insert slot own).Recorded :=
  fun s hs => mem_slots_insert_iff.2 (.inl (h s hs))

theorem Recorded.add (h : v.Recorded) (slot : Slot) (templates : List Template) :
    (v.add slot templates).Recorded := by
  intro s hs
  simp only [slots, SlotValues.add, OrderedMap.keys_update]
  split
  · exact h s hs
  · exact List.mem_append_left _ (h s hs)

theorem Recorded.addAll (h : v.Recorded) (sets : ValueSets) : (v.addAll sets).Recorded :=
  List.foldlRecOn (motive := Recorded) sets.entries _ h fun _ hw e _ => hw.add e.1 e.2.toList

theorem recorded_ofPairs (pairs : List (Slot × Template)) : (ofPairs pairs).Recorded :=
  List.foldlRecOn (motive := Recorded) pairs _ recorded_empty fun _ hw p _ => hw.add p.1 [p.2]

theorem Recorded.replace (h : v.Recorded) (slot target : Slot) : (v.replace slot target).Recorded := by
  intro s hs
  rw [isReplaced_eq_isSome, replacement?_replace_eq] at hs
  split at hs
  next heq => exact mem_slots_insert_iff.2 (.inr heq.symm)
  · exact mem_slots_insert_iff.2 (.inl (h s (by rwa [isReplaced_eq_isSome])))

theorem recorded_nonReplaced (v : SlotValues) : v.nonReplaced.Recorded := fun _ hs => by cases hs

/-! ## Writes to keys -/

/-- The keys are those of a list, in that order, and all replaced slots are among them. -/
structure KeysAre (keys : List Slot) (v : SlotValues) : Prop where
  slots : v.slots = keys
  replaced : ∀ s, ¬ v.Free s → s ∈ keys

theorem Recorded.keysAre (h : v.Recorded) : KeysAre v.slots v :=
  ⟨rfl, fun s hs => h s (by rwa [← Bool.not_eq_false, isReplaced_eq_false_iff])⟩

namespace KeysAre

theorem insert (h : KeysAre keys v) (hslot : slot ∈ keys) : KeysAre keys (v.insert slot own) := by
  rw [← h.slots] at hslot
  have hkey : v.values.contains slot = true := OrderedMap.contains_iff_mem_keys.2 hslot
  refine ⟨?_, h.replaced⟩
  rw [SlotValues.slots, SlotValues.insert, OrderedMap.keys_insert, if_pos hkey]
  exact h.slots

theorem replace (h : KeysAre keys v) (hslot : slot ∈ keys) : KeysAre keys (v.replace slot target) := by
  have hinsert : KeysAre keys (v.insert slot (residual target)) := h.insert hslot
  refine ⟨hinsert.slots, fun s hs => ?_⟩
  rw [Free, replacement?_replace_eq] at hs
  split at hs
  next heq => exact heq ▸ hslot
  · exact h.replaced s hs

theorem compress (h : KeysAre keys v) {limit : Nat} {r : SlotValues × Bool}
    (hr : v.compress limit slot = .ok r) : KeysAre keys r.1 := by
  rcases compress_eq_ok hr with ⟨-, rfl⟩ | ⟨target, last, htarget, -, rfl⟩
  · exact h
  · exact h.replace (h.replaced slot (not_free_of_replacement htarget))

theorem compressAll (h : KeysAre keys v) (hv : v.compressAll = .ok v') : KeysAre keys v' :=
  compressAll_induct (I := KeysAre keys) h (fun _ _ _ _ h hr => h.compress hr) hv

theorem gathering (alike : OrderedSet Template → OrderedSet Template → Bool)
    {state : SlotValues × List Slot} (h : KeysAre keys state.1) (hslot : slot ∈ keys) :
    KeysAre keys (gathering alike keys state slot).all := by
  let J (w : Work) : Prop := KeysAre keys w.all
  refine gathering_induct (I := J) h fun w hw later hlater => ?_
  exact absorb_induct (I := J) hw (fun _ _ => hw.replace (mem_of_mem_laterThan hlater))
    fun _ hw _ _ => hw.replace hslot

theorem conclude (h : KeysAre keys v) (hslot : slot ∈ keys) (own : OrderedSet Template) :
    KeysAre keys (conclude v slot own) := by
  unfold SlotValues.conclude
  split
  · exact (h.replace hslot).insert hslot
  · exact h.insert hslot

theorem turn {state state' : SlotValues × List Slot} (h : KeysAre keys state.1)
    (hslot : slot ∈ keys) (ht : turn alike keys state slot = .ok state') : KeysAre keys state'.1 := by
  rcases turn_eq_ok ht with ⟨r, hr, -, rfl⟩ | ⟨-, w, rfl, rfl⟩
  · exact h.compress hr
  · exact (h.gathering alike hslot).conclude hslot _

theorem followAll (h : KeysAre keys v) : KeysAre keys v.followAll := by
  refine followAll_induct (I := KeysAre keys) h fun w hw _ slot hslot => ?_
  unfold followIn
  split
  · exact hw.insert (h.slots ▸ (mem_unreplaced.1 hslot).1)
  · exact hw

theorem inlineInto (h : KeysAre keys v) (hused : UsedOnce v slot container) :
    KeysAre keys (v.inlineInto slot container) := by
  have hkey {s : Slot} (hs : s ∈ v.unreplaced) : s ∈ keys := h.slots ▸ (mem_unreplaced.1 hs).1
  exact (h.insert (hkey hused.container_unreplaced)).replace (hkey hused.unreplaced)

theorem of_meets {state : SlotValues × List Slot} {rest : List Slot} (h : KeysAre v.slots v)
    (hmeets : Meets alike v.slots (v.slots.mergeSort Slot.le) v state rest) :
    KeysAre v.slots state.1 := by
  induction hmeets with
  | start => exact h
  | turn hmeets ht ih => exact ih.turn hmeets.mem_slots ht
  | round _ ih => exact ih

theorem settled (h : KeysAre v.slots v) {settled : SlotValues} (hsettled : Settled alike v settled) :
    KeysAre v.slots settled :=
  h.of_meets (meets_settle hsettled)

/-- **Merging keeps the keys in their order.** -/
theorem mergeBy (h : KeysAre v.slots v) (hm : v.mergeBy alike = .ok m) : KeysAre v.slots m := by
  obtain ⟨settled, compressed, hsettled, hcompressed, hm⟩ := mergeBy_eq_ok_iff.1 hm
  refine (inlineAll_induct (I := KeysAre v.slots) ?_ ?_ _).compressAll hm
  · exact ((h.settled hsettled).compressAll hcompressed).followAll
  · exact fun _ _ _ hused hw => hw.inlineInto hused

end KeysAre

/-! ## The table of replacements -/

/-- The set of a replaced slot, after the last chains are compressed, is the slot that replaces it. -/
theorem get?_of_replacement (hm : v.compressAll = .ok m) (hs : m.replacement? s = some target) :
    (m.get? s).map OrderedSet.toList = some [.ofSlot target] := by
  have hsets : m.sets s = [.ofSlot target] :=
    (stored_compressAll hm s).symm.trans (rules_of_replacement hs)
  cases hget : m.get? s with
  | none => simp [sets, getD, hget] at hsets
  | some values =>
    rw [Option.map_some, ← hsets, sets, getD, hget]
    rfl

/-- **Merging leaves a table of replacements that is fully reduced.** If merging succeeds, at any
threshold and whatever has been replaced before, the slots are the same in the same order, each
replaced slot is replaced by another slot that is not replaced itself, and its value set is the one
template that is nothing but that slot. -/
theorem reduced_of_merge {threshold : Float} (hv : v.Recorded) (hm : v.merge threshold = .ok m) :
    m.slots = v.slots ∧ ∀ s target, m.replacement? s = some target →
      target ≠ s ∧ m.replacement? target = none ∧
        (m.get? s).map OrderedSet.toList = some [.ofSlot target] := by
  refine ⟨(hv.keysAre.mergeBy hm).slots, fun s target hs => ?_⟩
  obtain ⟨u, steps, -, hlast⟩ := exists_united hm
  have hfree : m.Free target := direct_compressAll hlast s target hs
  refine ⟨?_, hfree, get?_of_replacement hlast hs⟩
  rintro rfl
  rw [hfree] at hs
  cases hs

/-- A slot replaced before, by one that goes into another and is dissolved with it. -/
theorem reduced_of_merge_of_equalSlots :
    let v := equalSlots.replace (.named "D") (.named "C")
    v.Recorded ∧ ∃ m, v.merge 1.0 = .ok m ∧ m.slots = ["A", "B", "C", "D"].map .named ∧
      m.replacement? (.named "D") = some (.named "A") ∧
      m.replacement? (.named "A") = none ∧
      (m.get? (.named "D")).map OrderedSet.toList = some [.ofSlot (.named "A")] := by
  intro v
  have hrecorded : v.Recorded := (recorded_ofPairs _).replace _ _
  obtain ⟨m, hm, htarget⟩ : ∃ m, v.merge 1.0 = .ok m ∧
      m.replacement? (.named "D") = some (.named "A") := by
    apply exists_of_toOption
    rw [merge, mergeBy_of_sorted (by decide)]
    decide +kernel
  obtain ⟨hslots, hreplaced⟩ := reduced_of_merge hrecorded hm
  obtain ⟨-, hfree, hset⟩ := hreplaced _ _ htarget
  exact ⟨hrecorded, m, hm, hslots.trans (by decide), htarget, hfree, hset⟩

end SlotValues

end GrammarInduction
