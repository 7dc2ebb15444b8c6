import GrammarInduction.Slot

/-!
# Renamings of slots

A `SlotRenaming` is a finite one-to-one map between slots, kept in ascending order of its sources.
`insert?` adds a pair unless the map contradicts it; a pair that is there is added in vain.
-/

namespace GrammarInduction

/-- A finite one-to-one map between slots. -/
structure SlotRenaming where
  /-- The pairs of a source and a target, in ascending order of the sources. -/
  pairs : List (Slot × Slot)
  /-- The sources ascend. -/
  ascending : pairs.Pairwise fun p q => p.1.le q.1 = true ∧ p.1 ≠ q.1
  /-- No target occurs twice. -/
  injective : pairs.Pairwise fun p q => p.2 ≠ q.2

namespace SlotRenaming

/-- The map without pairs. -/
def empty : SlotRenaming := ⟨[], .nil, .nil⟩

instance : Inhabited SlotRenaming := ⟨empty⟩

instance : BEq SlotRenaming := ⟨fun r s => r.pairs == s.pairs⟩

/-- The target of a source. -/
def get? (r : SlotRenaming) (source : Slot) : Option Slot :=
  (r.pairs.find? fun p => p.1 == source).map Prod.snd

def size (r : SlotRenaming) : Nat := r.pairs.length

def isEmpty (r : SlotRenaming) : Bool := r.pairs.isEmpty

/-- Pairs with one more in its place. -/
def insertPair (pair : Slot × Slot) : List (Slot × Slot) → List (Slot × Slot)
  | [] => [pair]
  | p :: rest => if p.1.le pair.1 then p :: insertPair pair rest else pair :: p :: rest

theorem mem_insertPair {pair q : Slot × Slot} {pairs : List (Slot × Slot)} :
    q ∈ insertPair pair pairs ↔ q = pair ∨ q ∈ pairs := by
  induction pairs with
  | nil => simp [insertPair]
  | cons p rest ih =>
    simp only [insertPair]
    split
    · rw [List.mem_cons, ih, List.mem_cons]
      grind
    · simp

theorem ascending_insertPair {pair : Slot × Slot} {pairs : List (Slot × Slot)}
    (h : pairs.Pairwise fun p q => p.1.le q.1 = true ∧ p.1 ≠ q.1)
    (fresh : ∀ p ∈ pairs, p.1 ≠ pair.1) :
    (insertPair pair pairs).Pairwise fun p q => p.1.le q.1 = true ∧ p.1 ≠ q.1 := by
  induction pairs with
  | nil => simp [insertPair]
  | cons p rest ih =>
    rw [List.pairwise_cons] at h
    have hp := fresh p List.mem_cons_self
    simp only [insertPair]
    split
    next hle =>
      refine List.pairwise_cons.2 ⟨fun q hq => ?_, ih h.2 fun q hq => fresh q (.tail _ hq)⟩
      rcases mem_insertPair.1 hq with rfl | hq
      · exact ⟨hle, hp⟩
      · exact h.1 q hq
    next hle =>
      have hge : pair.1.le p.1 = true := by
        have := Slot.le_total p.1 pair.1
        simpa [hle] using this
      refine List.pairwise_cons.2 ⟨fun q hq => ?_, List.pairwise_cons.2 h⟩
      rcases List.mem_cons.1 hq with rfl | hq
      · exact ⟨hge, hp.symm⟩
      · exact ⟨Slot.le_trans hge (h.1 q hq).1, (fresh q (.tail _ hq)).symm⟩

theorem injective_insertPair {pair : Slot × Slot} {pairs : List (Slot × Slot)}
    (h : pairs.Pairwise fun p q => p.2 ≠ q.2) (fresh : ∀ p ∈ pairs, p.2 ≠ pair.2) :
    (insertPair pair pairs).Pairwise fun p q => p.2 ≠ q.2 := by
  induction pairs with
  | nil => simp [insertPair]
  | cons p rest ih =>
    rw [List.pairwise_cons] at h
    have hp := fresh p List.mem_cons_self
    simp only [insertPair]
    split
    · refine List.pairwise_cons.2 ⟨fun q hq => ?_, ih h.2 fun q hq => fresh q (.tail _ hq)⟩
      rcases mem_insertPair.1 hq with rfl | hq
      · exact hp
      · exact h.1 q hq
    · refine List.pairwise_cons.2 ⟨fun q hq => ?_, List.pairwise_cons.2 h⟩
      rcases List.mem_cons.1 hq with rfl | hq
      · exact hp.symm
      · exact (fresh q (.tail _ hq)).symm

/-- Whether a pair with the given source or target is there. -/
def mentions (r : SlotRenaming) (source target : Slot) : Bool :=
  r.pairs.any fun p => p.1 == source || p.2 == target

/-- Adds a pair, unless its source has another target or its target another source. -/
def insert? (r : SlotRenaming) (source target : Slot) : Option SlotRenaming :=
  if r.pairs.contains (source, target) then some r
  else if h : r.mentions source target = false then
    have apart (p : Slot × Slot) (hp : p ∈ r.pairs) : p.1 ≠ source ∧ p.2 ≠ target := by
      have := List.any_eq_false.1 h p hp
      simpa using this
    some
      { pairs := insertPair (source, target) r.pairs
        ascending := ascending_insertPair r.ascending fun p hp => (apart p hp).1
        injective := injective_insertPair r.injective fun p hp => (apart p hp).2 }
  else none

/-- The map of a list of pairs; pairs that contradict those before are left out. -/
def ofPairs (pairs : List (Slot × Slot)) : SlotRenaming :=
  pairs.foldl (fun r p => (r.insert? p.1 p.2).getD r) empty

end SlotRenaming

end GrammarInduction
