import GrammarInduction.Proofs.SlotValues.Remaining

/-!
# Keys and shapes of values

Merging writes to slots and takes none out, and what it writes are values that it has found, with
slots renamed. So whatever such writes keep is kept by merging (`Persists.united`,
`Persists.inlineAll`, `Persists.compressAll`). That is used for two properties.

* Slots stay keys (`persists_keys`).
* A property of templates that renaming keeps and single slots have holds of all values if it has
  held of all (`persists_values`). That a template is literal or a single slot is such a property
  (`Flat`).
-/

namespace GrammarInduction

namespace SlotValues

variable {v v' u m : SlotValues} {slot target container s : Slot} {own : OrderedSet Template}
  {t : Template} {alike : OrderedSet Template → OrderedSet Template → Bool}
  {I : SlotValues → Prop} {Q : Template → Prop}

/-! ## United slot values -/

/-- Merging up to the point where slots used once are dissolved. -/
def united (alike : OrderedSet Template → OrderedSet Template → Bool) (v : SlotValues) :
    Except Failure SlotValues := do
  let slots := v.slots
  let sorted := slots.mergeSort Slot.le
  let allowed := (slots.length + 1) * roundsPerSlot
  let settled ← settle alike slots sorted allowed allowed v sorted
  return (← settled.compressAll).followAll

theorem united_eq_ok_iff : v.united alike = .ok u ↔ ∃ settled compressed, Settled alike v settled ∧
    settled.compressAll = .ok compressed ∧ compressed.followAll = u := by
  refine ⟨fun hu => ?_, ?_⟩
  · obtain ⟨settled, hsettled, hu⟩ := bind_eq_ok hu
    obtain ⟨compressed, hcompressed, hu⟩ := bind_eq_ok hu
    exact ⟨settled, compressed, hsettled, hcompressed, Except.ok.inj hu⟩
  · rintro ⟨settled, compressed, hsettled, hcompressed, rfl⟩
    rw [Settled] at hsettled
    simp only [united, hsettled]
    show (settled.compressAll >>= fun compressed => pure compressed.followAll) = _
    rw [hcompressed]
    rfl

/-- Merging unites slots, dissolves those used once and compresses chains again. -/
theorem exists_united (hm : v.mergeBy alike = .ok m) :
    ∃ u steps, v.united alike = .ok u ∧ (inlineAll steps u).compressAll = .ok m := by
  obtain ⟨settled, compressed, hsettled, hcompressed, hm⟩ := mergeBy_eq_ok_iff.1 hm
  exact ⟨compressed.followAll, _,
    united_eq_ok_iff.2 ⟨settled, compressed, hsettled, hcompressed, rfl⟩, hm⟩

/-! ## What the writes of merging keep -/

/-- A property of slot values that is kept by replacing slots, and by writing templates of some kind;
all values are of that kind. -/
structure Persists (I : SlotValues → Prop) (Q : Template → Prop) : Prop where
  values : ∀ v, I v → ∀ s, ∀ t ∈ v.sets s, Q t
  rename : ∀ t names, Q t → Q (t.rename names)
  replace : ∀ v slot target, I v → I (v.replace slot target)
  insert : ∀ v slot (own : OrderedSet Template), I v → (∀ t ∈ own.toList, Q t) →
    I (v.insert slot own)

namespace Persists

variable (h : Persists I Q)

include h

theorem compress (hv : I v) {limit : Nat} {r : SlotValues × Bool}
    (hr : v.compress limit slot = .ok r) : I r.1 := by
  rcases compress_eq_ok hr with ⟨-, rfl⟩ | ⟨target, last, -, -, rfl⟩
  · exact hv
  · exact h.replace v slot last hv

theorem compressAll (hv : I v) (hc : v.compressAll = .ok v') : I v' :=
  compressAll_induct hv (fun _ _ _ _ hv hr => h.compress hv hr) hc

theorem gathering (alike : OrderedSet Template → OrderedSet Template → Bool) (slots : List Slot)
    (slot : Slot) {state : SlotValues × List Slot} (hv : I state.1) :
    I (gathering alike slots state slot).all ∧
      ∀ t ∈ (gathering alike slots state slot).own.toList, Q t := by
  let J (w : Work) : Prop := I w.all ∧ ∀ t ∈ w.own.toList, Q t
  refine gathering_induct (I := J) ⟨hv, h.values _ hv slot⟩ fun w hw later _ => ?_
  refine absorb_induct (I := J) hw (fun _ _ => ⟨h.replace _ _ _ hw.1, fun t ht => ?_⟩)
    fun w hw _ _ => ⟨h.replace _ _ _ hw.1, hw.2⟩
  rcases OrderedSet.mem_of_mem_insertAll ht with ht | ht
  · exact hw.2 t ht
  · exact h.values _ hw.1 later t ht

theorem turn {slots : List Slot} {state state' : SlotValues × List Slot} (hv : I state.1)
    (ht : turn alike slots state slot = .ok state') : I state'.1 := by
  rcases turn_eq_ok ht with ⟨r, hr, -, rfl⟩ | ⟨-, w, rfl, rfl⟩
  · exact h.compress hv hr
  · obtain ⟨hall, hown⟩ := h.gathering alike slots slot hv
    have hremaining : ∀ t ∈ (remaining (laterThan slots slot) slot
        (SlotValues.gathering alike slots state slot)).toList, Q t := by
      intro t ht
      obtain ⟨t', ht', rfl⟩ := mem_of_mem_remaining ht
      exact h.rename t' _ (hown t' ht')
    unfold conclude
    split
    · exact h.insert _ _ _ (h.replace _ _ _ hall) hremaining
    · exact h.insert _ _ _ hall hremaining

theorem followAll (hv : I v) : I v.followAll := by
  refine followAll_induct hv fun w hw _ slot _ => ?_
  unfold followIn
  split
  · refine h.insert _ _ _ hw fun t ht => ?_
    obtain ⟨t', ht', rfl⟩ := mem_of_mem_follow (mem_dropSelf.1 ht).1
    exact h.rename t' _ (h.values w hw slot t' ht')
  · exact hw

/-- What the writes of merging keep holds of what is united. -/
theorem united (hv : I v) (hu : v.united alike = .ok u) : I u := by
  obtain ⟨settled, compressed, hsettled, hcompressed, rfl⟩ := united_eq_ok_iff.1 hu
  have hsettled : I settled :=
    (settle_induct (fun _ _ _ _ _ hv ht => h.turn hv ht) .start hv hsettled).2
  exact h.followAll (h.compressAll hsettled hcompressed)

theorem inlineAll (hv : I v) (steps : Nat) : I (inlineAll steps v) := by
  refine inlineAll_induct hv (fun v slot container _ hv => ?_) steps
  refine h.replace _ _ _ (h.insert _ _ _ hv fun t ht => ?_)
  rcases OrderedSet.mem_of_mem_insertAll ht with ht | ht
  · exact h.values v hv container t (List.mem_filter.1 ht).1
  · exact h.values v hv slot t (List.mem_filter.1 ht).1

end Persists

/-! ## Keys -/

theorem mem_slots_insert_iff : s ∈ (v.insert slot own).slots ↔ s ∈ v.slots ∨ s = slot := by
  refine ⟨mem_slots_insert, fun hs => ?_⟩
  simp only [slots, insert, OrderedMap.keys_insert]
  split
  next hkey => exact hs.elim id fun hs => hs ▸ OrderedMap.contains_iff_mem_keys.1 hkey
  · exact List.mem_append.2 (hs.imp_right List.mem_singleton.2)

theorem persists_keys (slots : List Slot) :
    Persists (fun v => ∀ s ∈ slots, s ∈ v.slots) fun _ => True where
  values _ _ _ _ _ := trivial
  rename _ _ _ := trivial
  replace _ _ _ hv s hs := mem_slots_insert_iff.2 (.inl (hv s hs))
  insert _ _ _ hv _ s hs := mem_slots_insert_iff.2 (.inl (hv s hs))

/-- **Merging takes no slot out.** -/
theorem mem_slots_of_mergeBy (hm : v.mergeBy alike = .ok m) (hs : s ∈ v.slots) : s ∈ m.slots := by
  obtain ⟨u, steps, hu, hm⟩ := exists_united hm
  have hkeys := persists_keys v.slots
  exact hkeys.compressAll (hkeys.inlineAll (hkeys.united (fun _ hs => hs) hu) steps) hm s hs

/-! ## Shapes of values -/

theorem persists_values (hslot : ∀ s, Q (.ofSlot s)) (hrename : ∀ t names, Q t → Q (t.rename names)) :
    Persists (fun v => ∀ s, ∀ t ∈ v.sets s, Q t) Q where
  values _ hv := hv
  rename := hrename
  replace v slot target hv s t ht := by
    rw [sets_replace] at ht
    split at ht
    · exact List.mem_singleton.1 ht ▸ hslot target
    · exact hv s t ht
  insert v slot own hv hown s t ht := by
    rw [sets_insert] at ht
    split at ht
    · exact hown t ht
    · exact hv s t ht

/-- Each value is literal or a single slot. -/
def Flat (v : SlotValues) : Prop :=
  ∀ s, ∀ t ∈ v.sets s, t.hasSlots = false ∨ ∃ k, t = .ofSlot k

theorem flat_of_slots
    (h : ∀ s ∈ v.slots, ∀ t ∈ v.sets s, (!t.hasSlots || t.single?.isSome) = true) : v.Flat := by
  intro s t ht
  have hs := h s (mem_slots_of_sets_ne_nil (List.ne_nil_of_mem ht)) t ht
  rw [Bool.or_eq_true, Bool.not_eq_true', Option.isSome_iff_exists] at hs
  refine hs.imp_right ?_
  rintro ⟨k, hk⟩
  exact ⟨k, Template.eq_ofSlot_of_single? hk⟩

theorem persists_flat : Persists Flat fun t => t.hasSlots = false ∨ ∃ k, t = .ofSlot k :=
  persists_values (fun s => .inr ⟨s, rfl⟩) fun t names ht => by
    rcases ht with ht | ⟨k, rfl⟩
    · exact .inl (by rwa [Template.rename_of_not_hasSlots ht])
    · exact .inr ⟨_, rfl⟩

end SlotValues

end GrammarInduction
