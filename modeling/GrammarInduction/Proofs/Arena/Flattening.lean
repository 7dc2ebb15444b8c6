import GrammarInduction.Proofs.Arena.Collapsing
import GrammarInduction.Proofs.Arena.Depth

/-!
# Flattened trees

Flattening puts below the root, from each path down, the first node that is not too deep.

* `isDeep_iff`: below the root, the nodes passed over are those whose depth exceeds the limit.
* `mem_shallow_iff_mem_children`: if no child of the root is too deep, the nodes kept are its children, so
  that the root stays as it is (`flatten_eq_self`).
* `exists_mem_shallow_depth_eq`: otherwise a node of exactly the greatest depth allowed is kept. The
  depth falls by one at a time along a longest path, and a walk that goes down such a path stops at it.
* `flattening_exact`: flattening keeps the leaves and makes the tree as deep as it may be.
-/

namespace GrammarInduction.Arena

open Walk

variable {a : Arena} {i j root limit depth n : Nat}

/-! ## Longest paths -/

/-- A longest path goes on in a child of depth one less. -/
theorem exists_child_depth_eq (h : a.depth i = n + 1) : ∃ c ∈ a.children i, a.depth c = n := by
  have hnot : ¬ a.depth i ≤ n := by omega
  rw [depth_le_iff] at hnot
  push Not at hnot
  obtain ⟨c, hc, hle⟩ := hnot
  have hlt := depth_lt_of_mem_children hc
  exact ⟨c, hc, by omega⟩

/-! ## The nodes that are kept -/

theorem isDeep_iff (hi : a.Reaches root i) :
    a.isDeep root limit i = true ↔ i = root ∨ limit < a.depth i := by
  simp [isDeep, lookup_depths hi]

theorem isDeep_root (a : Arena) (root limit : Nat) : a.isDeep root limit root = true :=
  (isDeep_iff (.refl _ _)).2 (.inl rfl)

/-- A walk that goes on from a node that is passed over comes to its children. -/
theorem reaches_belowDeep_child (hj : Walk.Reaches (a.belowDeep root limit) root j)
    (hdeep : a.isDeep root limit j = true) (hi : i ∈ a.children j) :
    Walk.Reaches (a.belowDeep root limit) root i :=
  hj.trans (reaches_of_mem (by rwa [belowDeep, if_pos hdeep]))

/-- A node that is kept is not too deep. -/
theorem depth_le_of_mem_shallow (h : i ∈ a.shallow root limit) : a.depth i ≤ limit := by
  obtain ⟨hreaches, hshallow⟩ := mem_shallow.1 h
  rw [← Bool.not_eq_true, isDeep_iff (reaches_of_belowDeep hreaches)] at hshallow
  omega

/-- A child of a node that is passed over is kept if it is not too deep. -/
theorem mem_shallow_of_child (hj : Walk.Reaches (a.belowDeep root limit) root j)
    (hdeep : a.isDeep root limit j = true) (hi : i ∈ a.children j) (hle : a.depth i ≤ limit) :
    i ∈ a.shallow root limit := by
  have hreaches := reaches_belowDeep_child hj hdeep hi
  refine mem_shallow.2 ⟨hreaches, ?_⟩
  rw [← Bool.not_eq_true, isDeep_iff (reaches_of_belowDeep hreaches)]
  have hne : i ≠ root := Nat.ne_of_lt (Nat.lt_of_lt_of_le (children_lt hi) (reaches_of_belowDeep hj).le)
  omega

/-- Where no child of the root is too deep, the children are kept and nothing else. -/
theorem mem_shallow_iff_mem_children (h : a.depth root ≤ limit + 1) :
    i ∈ a.shallow root limit ↔ i ∈ a.children root := by
  have hle : ∀ c ∈ a.children root, a.depth c ≤ limit := by
    intro c hc
    have hlt := depth_lt_of_mem_children hc
    omega
  have hkept : ∀ c ∈ a.children root, c ∈ a.shallow root limit := fun c hc =>
    mem_shallow_of_child (.refl _ _) (isDeep_root a root limit) hc (hle c hc)
  refine ⟨fun hi => ?_, hkept i⟩
  obtain ⟨hreaches, hshallow⟩ := mem_shallow.1 hi
  rcases reaches_cases_head hreaches with rfl | ⟨c, hc, hci⟩
  · rw [isDeep_root] at hshallow
    cases hshallow
  · rw [belowDeep, if_pos (isDeep_root a root limit)] at hc
    -- the walk stops at a child of the root, which is not too deep
    rcases reaches_cases_head hci with rfl | ⟨d, hd, -⟩
    · exact hc
    · rw [belowDeep, (mem_shallow.1 (hkept c hc)).2] at hd
      cases hd

/-- **A node of the greatest depth allowed is kept** if the walk has come to one that is too deep. -/
theorem exists_mem_shallow_depth_eq (hj : Walk.Reaches (a.belowDeep root limit) root j)
    (hlt : limit < a.depth j) : ∃ i ∈ a.shallow root limit, a.depth i = limit := by
  induction j using Nat.strongRecOn with
  | ind j ih =>
    have hdeep : a.isDeep root limit j = true :=
      (isDeep_iff (reaches_of_belowDeep hj)).2 (.inr hlt)
    obtain ⟨c, hc, hdepth⟩ := exists_child_depth_eq (a := a) (i := j) (n := a.depth j - 1) (by omega)
    rcases Nat.lt_or_ge limit (a.depth c) with hdeeper | hle
    · exact ih c (children_lt hc) (reaches_belowDeep_child hj hdeep hc) hdeeper
    · exact ⟨c, mem_shallow_of_child hj hdeep hc hle, by omega⟩

/-! ## The flattened tree -/

/-- A tree that is not too deep stays as it is. -/
theorem flatten_eq_self (hroot : root < a.size) (h : a.depth root ≤ limit + 1) :
    a.flatten root (limit + 1) = (a, root) :=
  intern_children hroot fun _ => mem_shallow_iff_mem_children h

theorem depth_flatten (hroot : root < a.size) :
    (a.flatten root (limit + 1)).1.depth (a.flatten root (limit + 1)).2 =
      min (limit + 1) (a.depth root) := by
  rcases Nat.lt_or_ge (limit + 1) (a.depth root) with hlt | hle
  · have hkept : ∀ i ∈ a.shallow root limit, i < a.size := fun i hi =>
      (reaches_of_belowDeep (mem_shallow.1 hi).1).lt_size hroot
    have hext : (a.flatten root (limit + 1)).1.Extends a := a.extends_intern _ _
    have hchildren : ∀ i, i ∈ (a.flatten root (limit + 1)).1.children (a.flatten root (limit + 1)).2 ↔
        i ∈ a.shallow root limit := fun i => mem_children_intern hkept
    rw [Nat.min_eq_left (Nat.le_of_lt hlt)]
    apply Nat.le_antisymm
    · refine depth_le_iff.2 fun i hi => ?_
      rw [hchildren] at hi
      rw [hext.depth (hkept i hi)]
      exact Nat.lt_succ_of_le (depth_le_of_mem_shallow hi)
    · obtain ⟨i, hi, hdepth⟩ := exists_mem_shallow_depth_eq (.refl _ root) (Nat.lt_of_succ_lt hlt)
      have hbelow := depth_lt_of_mem_children ((hchildren i).2 hi)
      rwa [hext.depth (hkept i hi), hdepth] at hbelow
  · rw [flatten_eq_self hroot hle, Nat.min_eq_right hle]

/-- **Flattening keeps the leaves and cuts the depth down to the bound.** The flattened tree has the leaves
and the template of the root, its depth is the lesser of the bound and the depth of the root, and a root
that is no deeper than the bound is the flattened tree itself. -/
theorem flattening_exact (a : Arena) (hroot : root < a.size) (hdepth : 0 < depth) :
    (∀ l, l ∈ (a.flatten root depth).1.leaves (a.flatten root depth).2 ↔ l ∈ a.leaves root) ∧
    ((a.flatten root depth).1.template (a.flatten root depth).2 == a.template root) = true ∧
    (a.flatten root depth).1.depth (a.flatten root depth).2 = min depth (a.depth root) ∧
    (a.depth root ≤ depth → a.flatten root depth = (a, root)) := by
  obtain ⟨limit, rfl⟩ := Nat.exists_eq_add_of_lt hdepth
  rw [Nat.zero_add]
  have hformal : Slot.Formal fun _ => True := fun _ _ _ h => h
  have himage := (image_flatten hformal hroot (fun _ _ _ _ => trivial) (Nat.succ_ne_zero limit)).2
  exact ⟨himage.leaves, (a.intern_same _ _).2, depth_flatten hroot, flatten_eq_self hroot⟩

/-- The lines "a b c" and "d": the first is three levels below the root on one path and one level below
it on another. -/
def unevenLines : Arena :=
  let (a, first) := empty.leaf ⟨[.literal "a", .literal "b", .literal "c"]⟩
  let (a, second) := a.leaf ⟨[.literal "d"]⟩
  let (a, inner) := a.intern ⟨[.literal "a", .literal "b", .slot (.anonymous 0)]⟩ [first]
  let (a, outer) := a.intern ⟨[.literal "a", .slot (.anonymous 1)]⟩ [inner]
  (a.intern ⟨[.slot (.anonymous 2)]⟩ [outer, first, second]).1

/-- At depth two the node of depth one is kept, and the lines below the root. -/
theorem flattening_exact_of_unevenLines :
    4 < unevenLines.size ∧ 0 < 2 ∧
    (unevenLines.flatten 4 2).1.children (unevenLines.flatten 4 2).2 = [0, 1, 2] ∧
    (∀ l, l ∈ (unevenLines.flatten 4 2).1.leaves (unevenLines.flatten 4 2).2 ↔
      l ∈ unevenLines.leaves 4) ∧
    (unevenLines.flatten 4 2).1.depth (unevenLines.flatten 4 2).2 = min 2 (unevenLines.depth 4) ∧
    unevenLines.depth 4 = 3 ∧
    (unevenLines.depth 4 ≤ 3 → unevenLines.flatten 4 3 = (unevenLines, 4)) := by
  have hroot : 4 < unevenLines.size := by decide +kernel
  obtain ⟨hleaves, -, hdepth, -⟩ := flattening_exact unevenLines hroot (show 0 < 2 by decide)
  obtain ⟨-, -, -, hsame⟩ := flattening_exact unevenLines hroot (show 0 < 3 by decide)
  exact ⟨hroot, by decide, by decide +kernel, hleaves, hdepth, by decide +kernel, hsame⟩

end GrammarInduction.Arena
