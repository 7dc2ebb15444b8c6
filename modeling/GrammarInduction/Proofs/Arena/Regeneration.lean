import GrammarInduction.Proofs.Arena.Covering
import GrammarInduction.Proofs.Grammar.RootLanguage
import GrammarInduction.Proofs.Induction.Stages

/-!
# Slot values that give a tree back

The slot values of a tree are gathered edge by edge from the fillings that give the child (`addEdge`).
There is a filling exactly if the parent covers the child, so that a tree has slot values exactly if it is
covering (`exists_slotValues?_iff`). A leaf is reached along a path of fillings; the grammar read off the
root template and the values derives it (`slotValues?_regenerate`).
-/

namespace GrammarInduction.Arena

open Grammar

variable {a : Arena} {root l : Nat} {v : SlotValues}

/-- An edge has slot values exactly if the parent covers the child, whatever was gathered before. -/
theorem exists_addEdge_iff (v : SlotValues) (e : Nat × Nat) :
    (∃ v', a.addEdge v e = .ok v') ↔ (a.template e.1).covers (a.template e.2) = true := by
  rw [← Template.exists_bestFilling?_iff]
  constructor
  · rintro ⟨v', h⟩
    obtain ⟨sets, hsets, -⟩ := map_eq_ok h
    obtain ⟨filling, hfilling, -⟩ := map_eq_ok hsets
    exact ⟨filling, hfilling⟩
  · rintro ⟨filling, hfilling⟩
    exact ⟨_, by rw [addEdge, Template.slotValues?, hfilling, Except.map, Except.map]⟩

/-- **A tree has slot values exactly if it is covering.** -/
theorem exists_slotValues?_iff (a : Arena) (root : Nat) :
    (∃ v, a.slotValues? root = .ok v) ↔ a.Covering root := by
  constructor
  · rintro ⟨v, h⟩
    refine covering_of_edges fun e he => ?_
    obtain ⟨-, -, before, after, -, -, hstep, -⟩ := exists_step_of_mem he h
    exact (exists_addEdge_iff before e).1 ⟨after, hstep⟩
  · intro h
    obtain ⟨v, hv, -⟩ := exists_foldlM (f := a.addEdge) (s := .empty)
      (I := fun rest _ => ∀ e ∈ rest, (a.template e.1).covers (a.template e.2) = true)
      (fun e he => h e.1 (mem_arena_edges.1 he).1 e.2 (mem_arena_edges.1 he).2)
      fun e rest v hrest => by
        obtain ⟨v', hv'⟩ := (exists_addEdge_iff v e).2 (hrest e List.mem_cons_self)
        exact ⟨v', hv', fun e he => hrest e (.tail _ he)⟩
    exact ⟨v, hv⟩

/-- The grammar read off a tree of named slots, none of which has the name of the start, derives what is
below the root and has no slots. -/
theorem derives_of_slotValues? (hv : a.slotValues? root = .ok v)
    (hslots : ∀ i, a.Reaches root i → (a.template i).Over Slot.Ready) (hl : a.Reaches root l)
    (hfree : (a.template l).hasSlots = false) :
    Derives (ofValues (a.template root) v).productions [.slot (ofValues (a.template root) v).start]
      (a.template l).tokens := by
  have horigin : v.contains origin = false := by
    rw [← Bool.not_eq_true, SlotValues.contains, OrderedMap.contains_iff_mem_keys]
    exact fun hkey => ((over_slotValues? hv hslots).keys origin hkey).2 rfl
  have hnamed := fun i hi s hs => (hslots i hi s hs).1
  have hroot := Induction.derives_of_reaches hnamed hv hl
  rw [← Template.rename_of_not_hasSlots hfree (rootNames (a.template root))]
  exact derives_of_root (replacements_slotValues? hv) (.inr horigin) hroot

/-- **The slot values of a tree give it back.** A tree has slot values exactly if every parent in it covers
its children. If its slots are named, and none has the name of the start, then the grammar read off the
template of the root and the values derives from its start the templates of all leaves without slots. -/
theorem slotValues?_regenerate (a : Arena) (root : Nat) :
    ((∃ v, a.slotValues? root = .ok v) ↔ a.Covering root) ∧
    ∀ v, a.slotValues? root = .ok v →
      (∀ i, a.Reaches root i → ∀ s ∈ (a.template i).slots, s.isNamed = true ∧ s ≠ origin) →
      ∀ l ∈ a.leaves root, (a.template l).hasSlots = false →
        Derives (ofValues (a.template root) v).productions
          [.slot (ofValues (a.template root) v).start] (a.template l).tokens :=
  ⟨exists_slotValues?_iff a root, fun _ hv hslots _ hl hfree =>
    derives_of_slotValues? hv hslots (mem_leaves.1 hl).1 hfree⟩

/-- The lines "a b" and "a c", each below a slot and below "a" with the same slot. -/
def sharedSlot : Arena :=
  let slot := Token.slot (.named "s")
  let (a, first) := empty.leaf ⟨[.literal "a", .literal "b"]⟩
  let (a, second) := a.leaf ⟨[.literal "a", .literal "c"]⟩
  let (a, inner) := a.intern ⟨[.literal "a", slot]⟩ [first, second]
  (a.intern ⟨[slot]⟩ [inner, first]).1

/-- The slot of the root is a value in one of its own values, and the grammar derives both lines. -/
theorem slotValues?_regenerate_sharedSlot :
    sharedSlot.Covering 3 ∧ sharedSlot.leaves 3 = [0, 1] ∧
    (∀ i, sharedSlot.Reaches 3 i → ∀ s ∈ (sharedSlot.template i).slots,
      s.isNamed = true ∧ s ≠ origin) ∧
    ∃ v, sharedSlot.slotValues? 3 = .ok v ∧ ∀ l ∈ sharedSlot.leaves 3,
      Derives (ofValues (sharedSlot.template 3) v).productions
        [.slot (ofValues (sharedSlot.template 3) v).start] (sharedSlot.template l).tokens := by
  obtain ⟨hexists, hderives⟩ := slotValues?_regenerate sharedSlot 3
  have hcovering : sharedSlot.Covering 3 := covering_of_edges (by decide +kernel)
  have hslots : ∀ i, sharedSlot.Reaches 3 i → ∀ s ∈ (sharedSlot.template i).slots,
      s.isNamed = true ∧ s ≠ origin := by
    have hall : ∀ i ∈ sharedSlot.descendants 3, ∀ s ∈ (sharedSlot.template i).slots,
        s.isNamed = true ∧ s ≠ origin := by decide +kernel
    exact fun i hi => hall i (mem_descendants.2 hi)
  obtain ⟨v, hv⟩ := hexists.2 hcovering
  have hfree : ∀ l ∈ sharedSlot.leaves 3, (sharedSlot.template l).hasSlots = false := by
    decide +kernel
  exact ⟨hcovering, by decide +kernel, hslots, v, hv, fun l hl => hderives v hv hslots l hl (hfree l hl)⟩

end GrammarInduction.Arena
