import GrammarInduction.Proofs.SlotValues.Keeping

/-!
# The turn of a slot

In its turn a slot gathers values (`gathering`): its own ones and those of the slots that it takes
in. Of these some remain (`remaining`) and are written back (`conclude`).

* `reworks_afterTurn`: a turn changes slot values by what the slot gathers.
* `TurnKeeps`: after its turn a slot yields whatever the values that it has gathered have yielded.
  `TurnsKeep` says so of all turns that can be met.
* `keeps_mergeBy`: merging keeps what is derivable if all turns keep what the slot has gathered.
-/

namespace GrammarInduction

namespace SlotValues

variable {v v' : SlotValues} {slot s : Slot} {later slots sorted : List Slot}
  {own : OrderedSet Template} {t : Template} {w w' : Work}
  {alike : OrderedSet Template → OrderedSet Template → Bool}

/-! ## Gathering -/

/-- A slot at work has its own values and those of the slots that it has replaced. -/
abbrev Gathers (v : SlotValues) (slot : Slot) (w : Work) : Prop :=
  Reworks v w.all slot w.own.toList

theorem Gathers.replace (h : Gathers v slot w) (later : Slot) (updated : List Slot)
    (changed : Bool) :
    Gathers v slot { w with all := w.all.replace slot later, updated, changed } :=
  ⟨h.own, fun s hs => by rw [rules_replace_ne hs]; exact h.other s hs⟩

theorem Gathers.takeIn (h : Gathers v slot w) (hw : w.Over Named) {later : Slot}
    (hlater : w.all.Free later) (updated : List Slot) (changed : Bool) :
    Gathers v slot { all := w.all.replace later slot,
                     own := w.own.insertAll (w.all.getD later).toList, updated, changed } := by
  have hmem {t : Template} (ht : t ∈ w.own.toList) :
      t ∈ (w.own.insertAll (w.all.getD later).toList).toList := OrderedSet.mem_insertAll_of_mem ht
  refine ⟨fun t ht => hmem (h.own t ht), fun s hs => ?_⟩
  dsimp only
  rw [rules_replace]
  split
  next heq =>
    subst heq
    refine .inr ⟨rfl, fun t ht => ?_⟩
    rcases h.other later hs with heq | ⟨-, hin⟩
    · rw [← heq, rules_of_unreplaced hlater] at ht
      have hnamed := hw.all.values later
      apply mem_of_contains_of_named (hw.own.insertAll hnamed) (hnamed t ht)
      rw [OrderedSet.contains_insertAll, Bool.or_eq_true, List.any_eq_true]
      exact .inr ⟨t, ht, BEq.rfl⟩
    · exact hmem (hin t ht)
  · exact (h.other s hs).imp_right fun ⟨heq, hin⟩ => ⟨heq, fun t ht => hmem (hin t ht)⟩

theorem Gathers.absorb (h : Gathers v slot w) (hw : w.Over Named) (later : Slot) :
    Gathers v slot (SlotValues.absorb alike slot w later) := by
  refine absorb_induct (I := Gathers v slot) h ?takeIn ?point
  case takeIn => exact fun hlater _ => h.takeIn hw hlater _ _
  case point => exact fun w hw _ _ => hw.replace later _ _

theorem gathers_gathering (alike : OrderedSet Template → OrderedSet Template → Bool)
    {state : SlotValues × List Slot} (h : state.1.Over Named) (hslot : Named slot)
    (hslots : ∀ s ∈ slots, Named s) (hfree : state.1.Free slot) :
    Gathers state.1 slot (gathering alike slots state slot) := by
  have hinit : Gathers state.1 slot (untouched state slot) :=
    ⟨fun t ht => by rwa [rules_of_unreplaced hfree] at ht, fun s _ => .inl rfl⟩
  refine (gathering_induct (I := fun w => Gathers state.1 slot w ∧ w.Over Named)
    ⟨hinit, h, h.values slot⟩ ?_).1
  rintro w ⟨hgathers, hw⟩ later hlater
  exact ⟨hgathers.absorb hw later, hw.absorb hslot (hslots later (mem_of_mem_laterThan hlater))⟩

theorem rules_conclude_ne (hs : s ≠ slot) : (conclude v slot own).rules s = v.rules s := by
  simp only [rules, replacement?_conclude_ne hs, sets, getD_conclude, if_neg hs.symm]

theorem Reworks.conclude {gathered : List Template} (h : Reworks v v' slot gathered)
    (own : OrderedSet Template) : Reworks v (conclude v' slot own) slot gathered :=
  ⟨h.own, fun s hs => by rw [rules_conclude_ne hs]; exact h.other s hs⟩

/-! ## Turns that keep what is derivable -/

/-- The slot values after the turn of a slot that is not replaced. -/
def afterTurn (alike : OrderedSet Template → OrderedSet Template → Bool) (slots : List Slot)
    (state : SlotValues × List Slot) (slot : Slot) : SlotValues :=
  (reduce alike slot (laterThan slots slot) ⟨state.1, state.1.getD slot, state.2, false⟩).all

theorem afterTurn_eq (state : SlotValues × List Slot) : afterTurn alike slots state slot =
    conclude (gathering alike slots state slot).all slot
      (remaining (laterThan slots slot) slot (gathering alike slots state slot)) :=
  reduce_all slot _ _

/-- A turn changes slot values by what the slot has gathered. -/
theorem reworks_afterTurn (alike : OrderedSet Template → OrderedSet Template → Bool)
    {state : SlotValues × List Slot} (h : state.1.Over Named) (hslot : Named slot)
    (hslots : ∀ s ∈ slots, Named s) (hfree : state.1.Free slot) :
    Reworks state.1 (afterTurn alike slots state slot) slot
      (gathering alike slots state slot).own.toList := by
  rw [afterTurn_eq]
  exact (gathers_gathering alike h hslot hslots hfree).conclude _

/-- After its turn a slot yields what each value that it has gathered has yielded. -/
def TurnKeeps (alike : OrderedSet Template → OrderedSet Template → Bool) (slots : List Slot)
    (state : SlotValues × List Slot) (slot : Slot) : Prop :=
  ∀ t ∈ (gathering alike slots state slot).own.toList, ∀ w, Yields state.1.rules t.tokens w →
    Yields (afterTurn alike slots state slot).rules [.slot slot] w

/-- All turns that are met when slots are merged keep what the slot has gathered. -/
def TurnsKeep (alike : OrderedSet Template → OrderedSet Template → Bool) (v : SlotValues) : Prop :=
  ∀ state slot rest, Meets alike v.slots (v.slots.mergeSort Slot.le) v state (slot :: rest) →
    state.1.isReplaced slot = false → TurnKeeps alike v.slots state slot

theorem keeps_turn {state state' : SlotValues × List Slot} (h : state.1.Over Named)
    (hslot : Named slot) (hslots : ∀ s ∈ slots, Named s)
    (hkeeps : state.1.isReplaced slot = false → TurnKeeps alike slots state slot)
    (ht : turn alike slots state slot = .ok state') : Keeps state.1 state'.1 := by
  rcases turn_eq_ok ht with ⟨r, hr, -, rfl⟩ | ⟨hfree, w, rfl, rfl⟩
  · exact keeps_compress hr
  · have hreworks := reworks_afterTurn alike h hslot hslots hfree
    rw [← afterTurn_eq]
    exact hreworks.keeps fun t ht w hw _ => hkeeps (isReplaced_eq_false_iff.2 hfree) t ht w hw

/-! ## All together -/

/-- A set says what its slot stands for. -/
def Stored (v : SlotValues) (s : Slot) : Prop := v.rules s = v.sets s

theorem stored_of_unreplaced (h : v.replacement? s = none) : v.Stored s := rules_of_unreplaced h

theorem stored_replace (v : SlotValues) (slot target : Slot) :
    (v.replace slot target).Stored slot := by
  rw [Stored, rules_replace_self, sets, getD_replace, if_pos rfl]
  rfl

theorem Stored.replace_of_ne (h : v.Stored s) {target : Slot} (hs : s ≠ slot) :
    (v.replace slot target).Stored s := by
  rwa [Stored, rules_replace_ne hs, sets, getD_replace, if_neg hs.symm]

theorem stored_compress {limit : Nat} {r : SlotValues × Bool}
    (hr : v.compress limit slot = .ok r) (hs : s = slot ∨ v.Stored s) : r.1.Stored s := by
  rcases compress_eq_ok hr with ⟨hfree, rfl⟩ | ⟨target, last, -, -, rfl⟩
  · rcases hs with rfl | hs
    · exact stored_of_unreplaced hfree
    · exact hs
  · by_cases heq : s = slot
    · exact heq ▸ stored_replace v slot last
    · exact (hs.resolve_left heq).replace_of_ne heq

/-- Compressing the chains of all replaced slots writes the replacements into the sets. -/
theorem stored_compressAll (h : v.compressAll = .ok v') (s : Slot) : v'.Stored s := by
  by_cases hs : v.isReplaced s = true
  · refine foldlM_establish (R := fun s v => v.Stored s) ?_ h s
      (OrderedMap.contains_iff_mem_keys.1 hs)
    intro slot v v' hv
    obtain ⟨r, hr, rfl⟩ := map_eq_ok hv
    exact ⟨stored_compress hr (.inl rfl), fun s hs => stored_compress hr (.inr hs)⟩
  · rw [Bool.not_eq_true, isReplaced_eq_false_iff] at hs
    exact compressAll_induct (I := (·.Stored s)) (stored_of_unreplaced hs)
      (fun _ _ _ _ hs hr => stored_compress hr (.inr hs)) h

theorem rules_of_no_replacement (h : v.replacements = .empty) (s : Slot) :
    v.rules s = v.sets s := rules_of_unreplaced (by rw [replacement?, h]; rfl)

/-- If all turns keep what the slot has gathered, merging keeps what is derivable. -/
theorem keeps_mergeBy {m : SlotValues} (h : v.Over Named) (hturns : TurnsKeep alike v)
    (hm : v.mergeBy alike = .ok m) : Keeps v m := by
  obtain ⟨settled, compressed, hsettled, hcompressed, hm⟩ := mergeBy_eq_ok_iff.1 hm
  have hkeeps : Keeps v settled := by
    refine (settle_induct (I := Keeps v) ?_ .start (Keeps.refl v) hsettled).2
    intro state slot rest state' hmeets hkeeps ht
    exact hkeeps.trans
      (keeps_turn (h.of_meets hmeets) (h.keys slot hmeets.mem_slots) h.keys (hturns _ _ _ hmeets) ht)
  have hover := (h.settled hsettled).compressAll hcompressed
  have hfollow := hover.followAll
  exact (((hkeeps.trans (keeps_compressAll hcompressed)).trans (agrees_followAll hover).1).trans
    (keeps_inlineAll hfollow _)).trans (keeps_compressAll hm)

end SlotValues

end GrammarInduction
