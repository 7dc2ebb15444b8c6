import GrammarInduction.Proofs.Outcome
import GrammarInduction.SlotValues.Merge

/-!
# Induction along the rounds of merging

`Meets` tells which states can be met while slots are merged, with the slots that still have their
turn in the round. What holds at the start and is kept by each turn that can be met holds at the end
(`settle_induct`).
-/

namespace GrammarInduction

namespace SlotValues

variable {v v' : SlotValues} {alike : OrderedSet Template → OrderedSet Template → Bool}

/-- The state of a round, with the slots that still have their turn in it, can be met when slots are
merged. -/
inductive Meets (alike : OrderedSet Template → OrderedSet Template → Bool)
    (slots sorted : List Slot) (v : SlotValues) : SlotValues × List Slot → List Slot → Prop
  | start : Meets alike slots sorted v (v, []) sorted
  | turn {state state' : SlotValues × List Slot} {slot : Slot} {rest : List Slot} :
      Meets alike slots sorted v state (slot :: rest) →
      SlotValues.turn alike slots state slot = .ok state' → Meets alike slots sorted v state' rest
  | round {state : SlotValues × List Slot} :
      Meets alike slots sorted v state [] →
      Meets alike slots sorted v (state.1, []) (sorted.filter state.2.contains)

variable {I : SlotValues → Prop} {slots sorted dirty : List Slot} {v₀ : SlotValues}
  {state state' : SlotValues × List Slot} {allowed rounds : Nat}

/-- What holds of a state that is met and is kept by each turn holds when the slots have had theirs. -/
theorem round_induct
    (hturn : ∀ state slot rest state', Meets alike slots sorted v₀ state (slot :: rest) →
      I state.1 → turn alike slots state slot = .ok state' → I state'.1)
    (hmeets : Meets alike slots sorted v₀ state dirty) (hv : I state.1)
    (h : dirty.foldlM (turn alike slots) state = .ok state') :
    Meets alike slots sorted v₀ state' [] ∧ I state'.1 := by
  refine foldlM_induct_rest (I := fun rest state => Meets alike slots sorted v₀ state rest ∧ I state.1)
    ⟨hmeets, hv⟩ ?_ h
  rintro slot rest state state' ⟨hmeets, hv⟩ ht
  exact ⟨hmeets.turn ht, hturn _ _ _ _ hmeets hv ht⟩

theorem Meets.mem {s : Slot} (h : Meets alike slots sorted v₀ state dirty) (hs : s ∈ dirty) :
    s ∈ sorted := by
  induction h with
  | start => exact hs
  | turn _ _ ih => exact ih (.tail _ hs)
  | round _ _ => exact (List.mem_filter.1 hs).1

/-- A slot that has its turn is one of those merged. -/
theorem Meets.mem_slots {slot : Slot} {rest : List Slot}
    (h : Meets alike slots (slots.mergeSort Slot.le) v₀ state (slot :: rest)) : slot ∈ slots :=
  List.mem_mergeSort.1 (h.mem List.mem_cons_self)

theorem settle_nil (rounds : Nat) (v : SlotValues) :
    settle alike slots sorted allowed rounds v [] = .ok v := by
  unfold settle
  rfl

theorem settle_succ (rounds : Nat) (v : SlotValues) (dirty : List Slot) :
    settle alike slots sorted allowed (rounds + 1) v dirty =
      dirty.foldlM (turn alike slots) (v, []) >>= fun state =>
        settle alike slots sorted allowed rounds state.1 (sorted.filter state.2.contains) := by
  cases dirty with
  | nil =>
    have hnone : sorted.filter ([] : List Slot).contains = [] := List.filter_eq_nil_iff.2 (by simp)
    change _ = settle alike slots sorted allowed rounds v (sorted.filter ([] : List Slot).contains)
    rw [hnone, settle_nil, settle_nil]
  | cons slot rest => rfl

/-- What the rounds end with is met, and no slot has a turn then. What holds at the start and is kept
by each turn holds of it. -/
theorem settle_induct (hturn : ∀ state slot rest state',
      Meets alike slots sorted v₀ state (slot :: rest) →
      I state.1 → turn alike slots state slot = .ok state' → I state'.1)
    (hmeets : Meets alike slots sorted v₀ (v, []) dirty) (hv : I v)
    (h : settle alike slots sorted allowed rounds v dirty = .ok v') :
    Meets alike slots sorted v₀ (v', []) [] ∧ I v' := by
  induction rounds generalizing v dirty with
  | zero =>
    cases dirty with
    | nil => exact Except.ok.inj h ▸ ⟨hmeets, hv⟩
    | cons slot rest => cases h
  | succ rounds ih =>
    rw [settle_succ] at h
    obtain ⟨state, hfold, h⟩ := bind_eq_ok h
    obtain ⟨hmeets, hv⟩ := round_induct hturn hmeets hv hfold
    exact ih hmeets.round hv h

theorem meets_settle (h : settle alike slots sorted allowed rounds v sorted = .ok v') :
    Meets alike slots sorted v (v', []) [] :=
  (settle_induct (I := fun _ => True) (fun _ _ _ _ _ _ _ => trivial) .start trivial h).1

end SlotValues

end GrammarInduction
