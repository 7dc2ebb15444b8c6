import GrammarInduction.Arena.Traversal
import GrammarInduction.Proofs.Arena.Below
import Mathlib.Order.Basic

/-!
# The depth of trees

The depth of a node is one more than the greatest depth of its children (`depth_le_iff`). It is the same
whatever tree the node is looked at in (`lookup_depths`), and stays the same when the arena grows
(`Extends.depth`).

`Within n a i` says what the depth bounds: no path down from `i` has more than `n` edges.
-/

namespace GrammarInduction.Arena

open Walk

variable {a b : Arena} {i c n d root : Nat} {ds : List Nat}

theorem foldl_max_lt_iff : ds.foldl max d < n ↔ d < n ∧ ∀ e ∈ ds, e < n := by
  induction ds generalizing d with
  | nil => simp
  | cons e ds ih => rw [List.foldl_cons, ih, List.forall_mem_cons, Nat.max_lt, and_assoc]

theorem depthAbove_le_iff : depthAbove ds ≤ n ↔ ∀ d ∈ ds, d < n := by
  cases ds with
  | nil => simp [depthAbove]
  | cons d ds => rw [depthAbove, Nat.add_one_le_iff, foldl_max_lt_iff, List.forall_mem_cons]

/-- No path down from a node has more than `n` edges. -/
def Within : Nat → Arena → Nat → Prop
  | 0, a, i => a.children i = []
  | n + 1, a, i => ∀ c ∈ a.children i, Within n a c

/-- The depths in a tree bound the paths down from its nodes. -/
theorem exists_lookup_depths (hi : a.Reaches root i) :
    ∃ d, (a.depths root).lookup i = some d ∧ ∀ n, d ≤ n ↔ Within n a i := by
  refine evaluate_spec (P := fun i d => ∀ n, d ≤ n ↔ Within n a i) (fun i _ ds hds n => ?_) hi
  rw [depthAbove_le_iff]
  cases n with
  | zero =>
    simp only [Nat.not_lt_zero, imp_false, ← List.eq_nil_iff_forall_not_mem, Within]
    rw [← List.length_eq_zero_iff, ← List.length_eq_zero_iff, hds.length_eq]
  | succ n =>
    constructor
    · intro h c hc
      obtain ⟨d, hd, hcd⟩ := exists_of_mem_left hds hc
      exact (hcd n).1 (Nat.le_of_lt_succ (h d hd))
    · intro h d hd
      obtain ⟨c, hc, hcd⟩ := exists_of_mem_right hds hd
      exact Nat.lt_succ_of_le ((hcd n).2 (h c hc))

theorem depth_le_iff_within : a.depth i ≤ n ↔ Within n a i := by
  obtain ⟨d, hd, hwithin⟩ := exists_lookup_depths (a := a) (.refl _ i)
  rw [depth, hd]
  exact hwithin n

theorem lookup_depths (hi : a.Reaches root i) : (a.depths root).lookup i = some (a.depth i) := by
  obtain ⟨d, hd, hwithin⟩ := exists_lookup_depths hi
  rw [hd, eq_of_forall_ge_iff fun n => (hwithin n).trans depth_le_iff_within.symm]

/-- **The depth of a node is one more than the greatest depth of its children.** -/
theorem depth_le_iff : a.depth i ≤ n ↔ ∀ c ∈ a.children i, a.depth c < n := by
  rw [depth_le_iff_within]
  cases n with
  | zero => simp [Within, List.eq_nil_iff_forall_not_mem]
  | succ n => simp only [Within, Nat.lt_succ_iff, depth_le_iff_within]

theorem depth_lt_of_mem_children (hc : c ∈ a.children i) : a.depth c < a.depth i :=
  depth_le_iff.1 (Nat.le_refl _) c hc

theorem Reaches.depth_le (h : a.Reaches i c) : a.depth c ≤ a.depth i := by
  apply h.induct (P := fun c => a.depth c ≤ a.depth i) (Nat.le_refl _)
  exact fun c hc d hd => Nat.le_trans (Nat.le_of_lt (depth_lt_of_mem_children hd)) hc

theorem depth_eq_zero_iff : a.depth i = 0 ↔ a.isLeaf i = true := by
  rw [← Nat.le_zero, depth_le_iff_within, isLeaf_iff, Within]

theorem Extends.depth (h : b.Extends a) (hi : i < a.size) : b.depth i = a.depth i := by
  induction i using Nat.strongRecOn with
  | ind i ih =>
    refine eq_of_forall_ge_iff fun n => ?_
    rw [depth_le_iff, depth_le_iff, h.children hi]
    exact forall₂_congr fun c hc => by rw [ih c (children_lt hc) (Nat.lt_trans (children_lt hc) hi)]

end GrammarInduction.Arena
