import GrammarInduction.Proofs.SlotValues.Irreducible

/-!
# Slot values without references

If no value mentions a slot that has values itself, merging by equality has nothing to follow, to drop
or to dissolve: the slots that are not replaced keep their sets (`getD_of_meets_of_plain`), and all that
happens is that each takes in the later slots with the same values. One turn for each slot is enough for
that, so that merging is through after one run (`irreducible_of_plain`).
-/

namespace GrammarInduction

namespace SlotValues

variable {v m : SlotValues} {slot s k : Slot} {slots dirty : List Slot}
  {own : OrderedSet Template} {w : Work}
  {state state' : SlotValues × List Slot}
  {alike : OrderedSet Template → OrderedSet Template → Bool}

/-- No value mentions a slot of a list. -/
def Keyless (slots : List Slot) (own : OrderedSet Template) : Prop := SetOver (· ∉ slots) own

instance (slots : List Slot) (own : OrderedSet Template) : Decidable (Keyless slots own) :=
  inferInstanceAs (Decidable (SetOver (· ∉ slots) own))

/-- No value mentions a slot that has values itself. -/
def Plain (v : SlotValues) : Prop := ∀ s, Keyless v.slots (v.getD s)

theorem Keyless.not_mem (h : Keyless slots own) (hk : k ∈ slotMembers own) : k ∉ slots :=
  Template.over_ofSlot_iff.1 (h _ (mem_slotMembers.1 hk))

theorem plain_of_slots (h : ∀ s ∈ v.slots, Keyless v.slots (v.getD s)) : v.Plain :=
  fun s t ht => h s (mem_slots_of_sets_ne_nil (List.ne_nil_of_mem ht)) t ht

/-- Of values that mention no key none is given up. -/
theorem Keyless.remaining_eq {later : List Slot} (h : Keyless slots w.own) (hw : w.Over Named)
    (hkeys : KeysAre slots w.all) (hslot : slot ∈ slots) (hlater : ∀ s ∈ later, s ∈ slots) :
    remaining later slot w = w.own := by
  refine remaining_eq_self ?_ ?_ ?_ ?_
  · exact dropProvided_eq_self fun k hk hkl => absurd (hlater k hkl) (h.not_mem (mem_slotMembers.2 hk))
  · refine (dropCovered_eq_self_iff hw.all hw.own).2 fun k hk hcovers => h.not_mem hk ?_
    exact hkeys.slots ▸ hcovers.1
  · exact fun t ht k hk => Decidable.byContradiction fun hgone => h t ht k hk (hkeys.replaced k hgone)
  · exact fun hself => h.not_mem (mem_slotMembers.2 hself) hslot

section Exact

variable (hexact : ∀ a b, alike a b = true → a.sameMembers b = true) (hnamed : v.Over Named)
  (hkeys : KeysAre v.slots v) (hplain : v.Plain)

include hexact hnamed hkeys hplain

/-- The slots that are not replaced keep their sets in each turn. -/
theorem getD_turn_of_plain
    (hmeets : Meets alike v.slots (v.slots.mergeSort Slot.le) v state (slot :: dirty))
    (h : ∀ s, state.1.Free s → state.1.getD s = v.getD s)
    (ht : turn alike v.slots state slot = .ok state') (hs : state'.1.Free s) :
    state'.1.getD s = v.getD s := by
  have hnodup : v.slots.Nodup := v.values.nodup_keys
  have hfree := free_of_free_turn hnodup ht hs
  by_cases hne : s = slot
  swap
  · rw [getD_turn_of_ne hnodup ht hne hs, h s hfree]
  subst hne
  have hslot : s ∈ v.slots := hmeets.mem_slots
  have hover := hnamed.of_meets hmeets
  have hown : (gathering alike v.slots state s).own = v.getD s :=
    (own_gathering_of_exact hexact hover hnamed.keys hslot).trans (h s hfree)
  have hkeyless : Keyless v.slots (gathering alike v.slots state s).own := hown ▸ hplain s
  rw [(worked_of_turn hnodup ht hfree).getD_self, hkeyless.remaining_eq
    (hover.gathering alike (hnamed.keys s hslot) hnamed.keys)
    ((hkeys.of_meets hmeets).gathering alike hslot) hslot fun _ => mem_of_mem_laterThan, hown]

theorem getD_of_meets_of_plain
    (hmeets : Meets alike v.slots (v.slots.mergeSort Slot.le) v state dirty) (hs : state.1.Free s) :
    state.1.getD s = v.getD s := by
  induction hmeets generalizing s with
  | start => rfl
  | turn hmeets ht ih =>
    exact getD_turn_of_plain hexact hnamed hkeys hplain hmeets (fun _ => ih) ht hs
  | round _ ih => exact ih hs

/-- When each slot has had a turn, those that are not replaced have different values. -/
theorem not_alike_of_plain {allowed rounds : Nat} {settled : SlotValues}
    (hsettled : settle alike v.slots (v.slots.mergeSort Slot.le) allowed rounds v
      (v.slots.mergeSort Slot.le) = .ok settled)
    (hs : settled.Free s) (hk : settled.Free k) (hlater : k ∈ laterThan v.slots s) (hkey : s ∈ v.slots) :
    alike (v.getD s) (v.getD k) = false := by
  have hnodup : v.slots.Nodup := v.values.nodup_keys
  obtain ⟨state, state', rest, hmeets, ht⟩ := exists_turn_of_settle hsettled (List.mem_mergeSort.2 hkey)
  have hfree {s : Slot} (hs : settled.Free s) : state.1.Free s := hmeets.free hnodup hsettled hs
  have hfree' : state'.1.Free k := (hmeets.turn ht).free hnodup hsettled hk
  rw [← getD_of_meets_of_plain hexact hnamed hkeys hplain hmeets (hfree hs),
    ← getD_of_meets_of_plain hexact hnamed hkeys hplain hmeets (hfree hk)]
  exact not_alike_of_free_gathering hexact hnodup (hnamed.of_meets hmeets) hnamed.keys hkey hlater
    ((worked_of_turn hnodup ht (hfree hs)).free_gathered hfree')

/-- The slots that merging leaves unreplaced keep their sets, and are as the rounds have left them. -/
theorem exists_settled_of_plain (hm : v.mergeBy alike = .ok m) :
    ∃ settled, Settled alike v settled ∧
      ∀ s, m.Free s → settled.Free s ∧ settled.getD s = v.getD s ∧ m.getD s = v.getD s := by
  obtain ⟨settled, compressed, hsettled, hcompressed, hm⟩ := mergeBy_eq_ok_iff.1 hm
  have hgetD {s : Slot} (hs : settled.Free s) : settled.getD s = v.getD s :=
    getD_of_meets_of_plain hexact hnamed hkeys hplain (meets_settle hsettled) hs
  have hcompressedKeys : KeysAre v.slots compressed := (hkeys.settled hsettled).compressAll hcompressed
  have hcompressedGetD {s : Slot} (hs : compressed.Free s) : compressed.getD s = v.getD s := by
    have hfree := (free_compressAll_iff hcompressed).1 hs
    rw [← hgetD hfree]
    exact OrderedSet.eq_of_toList_eq (sets_compressAll_of_free hcompressed hfree)
  have hclosed : compressed.Closed := by
    intro s hs t ht k hk
    rw [hcompressedGetD hs] at ht
    exact Decidable.byContradiction fun hgone => hplain s t ht k hk (hcompressedKeys.replaced k hgone)
  -- A slot used once is a key that is mentioned.
  have hspent (slot container : Slot) : ¬ UsedOnce compressed slot container := by
    intro hused
    have hvalue := hused.value
    rw [hcompressedGetD hused.container_free] at hvalue
    refine (hplain container).not_mem (mem_slotMembers.2 hvalue) ?_
    exact hcompressedKeys.slots ▸ (mem_unreplaced_iff.1 hused.unreplaced).1
  rw [followAll_eq_self hclosed, inlineAll_eq_self hspent] at hm
  refine ⟨settled, hsettled, fun s hs => ?_⟩
  have hs' := (free_compressAll_iff hm).1 hs
  have hs'' := (free_compressAll_iff hcompressed).1 hs'
  refine ⟨hs'', hgetD hs'', (OrderedSet.eq_of_toList_eq ?_).trans (hcompressedGetD hs')⟩
  exact sets_compressAll_of_free hm hs'

/-- **Without references merging leaves irreducible slot values.** -/
theorem irreducible_of_plain (halike : ∀ a b, a.sameMembers b = true → alike a b = true)
    (hm : v.mergeBy alike = .ok m) : m.Irreducible := by
  have hnodup : v.slots.Nodup := v.values.nodup_keys
  obtain ⟨settled, hsettled, hend⟩ := exists_settled_of_plain hexact hnamed hkeys hplain hm
  have hmerged : KeysAre v.slots m := hkeys.mergeBy hm
  have hunreplaced {s : Slot} (hs : s ∈ m.unreplaced) : s ∈ v.slots ∧ m.Free s :=
    hmerged.slots ▸ mem_unreplaced_iff.1 hs
  have hkeyless {s : Slot} (hs : s ∈ m.unreplaced) : Keyless m.slots (m.getD s) := by
    rw [(hend s (hunreplaced hs).2).2.2, hmerged.slots]
    exact hplain s
  have hapart {s k : Slot} (hs : s ∈ m.unreplaced) (hk : k ∈ m.unreplaced)
      (hsame : (m.getD s).sameMembers (m.getD k) = true) : k ∉ laterThan v.slots s := by
    intro hlater
    obtain ⟨hkey, hs⟩ := hunreplaced hs
    obtain ⟨-, hk⟩ := hunreplaced hk
    obtain ⟨hs', -, hsetS⟩ := hend s hs
    obtain ⟨hk', -, hsetK⟩ := hend k hk
    rw [hsetS, hsetK] at hsame
    have hne := not_alike_of_plain hexact hnamed hkeys hplain hsettled hs' hk' hlater hkey
    rw [halike _ _ hsame] at hne
    cases hne
  refine ⟨fun s hs t ht k hk => ?_, fun s hs k hk hsame => ?_, fun s hs => ?_, ?_, ?_⟩
  · refine Decidable.byContradiction fun hgone => ?_
    rw [(hend s hs).2.2] at ht
    exact hplain s t ht k hk (hmerged.replaced k hgone)
  · refine Decidable.byContradiction fun hne => ?_
    have hover := over_mergeBy hnamed hm
    rcases mem_laterThan_or (hunreplaced hs).1 (hunreplaced hk).1 hne with hlater | hlater
    · exact hapart hs hk hsame hlater
    · exact hapart hk hs (sameMembers_symm (hover.values s) (hover.values k) hsame) hlater
  · obtain ⟨hkey, hfree⟩ := hunreplaced hs
    obtain ⟨hfree', hset, hset'⟩ := hend s hfree
    have hdivided := divided_settle hnodup hsettled (List.mem_mergeSort.2 hkey) hfree'
    rwa [Divided, sets, hset, ← hset'] at hdivided
  · exact fun s hs k hlater hk => absurd (mem_of_mem_laterThan hlater) ((hkeyless hs).not_mem hk)
  · exact fun s hs k hk hcovers => (hkeyless hs).not_mem hk hcovers.1

end Exact

end SlotValues

end GrammarInduction
