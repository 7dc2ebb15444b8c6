import GrammarInduction.Proofs.Arena.Growth
import Mathlib.Data.List.Sort

/-!
# Equal trees are the same node

An arena that is made from the empty one by operations (`run`) holds every tree once, whatever is
stored, learned and transformed in it, so that numbers of nodes stand for trees (`sharing_run`). No
node is ever changed (`extends_run`), and what is asked for is stored as asked for (`stores_intern`).

* `SameTree a i j`: the trees below two nodes are equal. Templates are compared by `==`, which takes
  anonymous slots for equal, and children as sets.
* `eq_of_sameTree`: the trees below two nodes are equal only if it is one node. The induction is on the
  number of the node, since children have smaller ones.
* `Stores a t ids r`: `r` is what storing one node comes to, the arena after it and the node.
-/

namespace GrammarInduction.Arena

variable {a : Arena} {i j : Nat}

/-! ## Equality of trees -/

/-- Whether the trees below two nodes are equal: equal templates, and for every child of each a child
of the other one with an equal tree. -/
def SameTree (a : Arena) (i j : Nat) : Prop :=
  (a.template i == a.template j) = true ∧
    (∀ c, ∀ _ : c ∈ a.children i, ∃ d ∈ a.children j, SameTree a c d) ∧
    ∀ d ∈ a.children j, ∃ c, ∃ _ : c ∈ a.children i, SameTree a c d
termination_by i
decreasing_by all_goals exact children_lt ‹_›

theorem sameTree_iff : a.SameTree i j ↔ (a.template i == a.template j) = true ∧
    (∀ c ∈ a.children i, ∃ d ∈ a.children j, a.SameTree c d) ∧
    ∀ d ∈ a.children j, ∃ c ∈ a.children i, a.SameTree c d := by
  rw [SameTree]
  simp only [exists_prop]

theorem sameTree_refl (a : Arena) (i : Nat) : a.SameTree i i := by
  induction i using Nat.strongRecOn with
  | ind i ih =>
    have hchildren : ∀ c ∈ a.children i, ∃ d ∈ a.children i, a.SameTree c d :=
      fun c hc => ⟨c, hc, ih c (children_lt hc)⟩
    have hback : ∀ d ∈ a.children i, ∃ c ∈ a.children i, a.SameTree c d :=
      fun d hd => ⟨d, hd, ih d (children_lt hd)⟩
    exact sameTree_iff.2 ⟨BEq.rfl, hchildren, hback⟩

/-- Equal trees are the same node. -/
theorem eq_of_sameTree (hi : i < a.size) (hj : j < a.size) (h : a.SameTree i j) : i = j := by
  induction i using Nat.strongRecOn generalizing j with
  | ind i ih =>
    obtain ⟨htemplate, hto, hfrom⟩ := sameTree_iff.1 h
    have heq : ∀ c ∈ a.children i, ∀ d ∈ a.children j, a.SameTree c d → c = d := fun c hc d hd =>
      ih c (children_lt hc) (Nat.lt_trans (children_lt hc) hi) (Nat.lt_trans (children_lt hd) hj)
    have hmem : ∀ c, c ∈ a.children i ↔ c ∈ a.children j := by
      intro c
      constructor
      · intro hc
        obtain ⟨d, hd, hcd⟩ := hto c hc
        exact heq c hc d hd hcd ▸ hd
      · intro hc
        obtain ⟨d, hd, hdc⟩ := hfrom c hc
        exact heq d hd c hc hdc ▸ hd
    -- both lists ascend, so that they are equal as soon as they have the same members
    have hchildren : a.children i = a.children j :=
      (a.children_pairwise i).eq_of_mem_iff (a.children_pairwise j) hmem
    exact eq_of_same hi hj hchildren htemplate

/-! ## Storing one node -/

/-- Whether `r` is an arena with the nodes of `a` and a node with the template `t` and the children
`ids`, of which those count that are in `a`. -/
structure Stores (a : Arena) (t : Template) (ids : List Nat) (r : Arena × Nat) : Prop where
  keeps : r.1.Extends a
  lt_size : r.2 < r.1.size
  template : (r.1.template r.2 == t) = true
  children : ∀ c, c ∈ r.1.children r.2 ↔ c ∈ ids ∧ c < a.size
  /-- The node is the only one that may be new. -/
  eq_of_new : ∀ i, i < r.1.size → a.size ≤ i → i = r.2

/-- A node that `intern` stores is the one that it gives. -/
theorem eq_of_new_intern {t : Template} {ids : List Nat} (hi : i < (a.intern t ids).1.size)
    (hnew : a.size ≤ i) : i = (a.intern t ids).2 := by
  simp only [intern] at hi ⊢
  split at hi
  · exact absurd hi (Nat.not_lt_of_le hnew)
  · have hlt : i < a.size + 1 := by simpa [push, size] using hi
    exact Nat.le_antisymm (Nat.le_of_lt_succ hlt) hnew

theorem stores_intern (a : Arena) (t : Template) (ids : List Nat) :
    a.Stores t ids (a.intern t ids) := by
  obtain ⟨hchildren, htemplate⟩ := a.intern_same t ids
  refine ⟨a.extends_intern t ids, a.intern_lt_size t ids, htemplate, fun c => ?_,
    fun i => eq_of_new_intern⟩
  rw [hchildren, mem_arrange, and_comm]

theorem stores_leaf (a : Arena) (t : Template) : a.Stores t [] (a.leaf t) := a.stores_intern t []

/-! ## Operations -/

/-- The operations that store nodes. -/
inductive Operation where
  | leaf (template : Template)
  | node (template : Template) (children : List Nat)
  | learn (learner : Learner) (templates : List Template) (supply : Nat)
  | transform (f : Transformation) (root : Nat)
  | recalculate (minimalVariables : Bool) (root supply : Nat)

/-- The arena after an operation. Learning that fails stores nothing. -/
def Operation.apply : Operation → Arena → Arena
  | leaf template, a => (a.leaf template).1
  | node template children, a => (a.intern template children).1
  | learn learner templates supply, a =>
    match learner.learn a templates supply with
    | .error _ => a
    | .ok r => r.1.1
  | transform f root, a => (f.apply a root).1
  | recalculate minimalVariables root supply, a => (a.recalculate minimalVariables root supply).1.1

theorem extends_apply (op : Operation) (a : Arena) : (op.apply a).Extends a := by
  cases op with
  | leaf template => exact a.extends_intern template []
  | node template children => exact a.extends_intern template children
  | learn learner templates supply =>
    unfold Operation.apply
    dsimp only
    split
    · exact .refl a
    next r hlearn => exact Learner.extends_learn hlearn
  | transform f root => exact extends_transform f a root
  | recalculate minimalVariables root supply =>
    exact extends_recalculate minimalVariables a root supply

/-- The arena after operations, the first one first. -/
def run (a : Arena) (ops : List Operation) : Arena := ops.foldl (fun a op => op.apply a) a

theorem extends_run (a : Arena) (ops : List Operation) : (a.run ops).Extends a := by
  induction ops generalizing a with
  | nil => exact .refl a
  | cons op ops ih => exact (ih (op.apply a)).trans (extends_apply op a)

/-- **Trees are stored once.** After any operations on the empty arena children ascend and are older
than their parent, no two nodes have equal templates and the same children, and two nodes are the same
one exactly if the trees below them are equal; and all of them keep their template and their children
under any further operations. Storing a leaf or a node in such an arena gives a node with the template
and the children asked for, and nothing else. -/
theorem sharing_run (ops : List Operation) :
    (∀ i, ((empty.run ops).children i).Pairwise (· < ·) ∧ ∀ c ∈ (empty.run ops).children i, c < i) ∧
      (∀ i j, i < (empty.run ops).size → j < (empty.run ops).size → i ≠ j →
        ¬ (((empty.run ops).template i == (empty.run ops).template j) = true ∧
          (empty.run ops).children i = (empty.run ops).children j)) ∧
      (∀ i j, i < (empty.run ops).size → j < (empty.run ops).size →
        (i = j ↔ (empty.run ops).SameTree i j)) ∧
      (∀ more i, i < (empty.run ops).size →
        i < ((empty.run ops).run more).size ∧
          ((empty.run ops).run more).template i = (empty.run ops).template i ∧
          ((empty.run ops).run more).children i = (empty.run ops).children i) ∧
      ∀ template ids,
        (empty.run ops).Stores template [] ((empty.run ops).leaf template) ∧
          (empty.run ops).Stores template ids ((empty.run ops).intern template ids) := by
  generalize empty.run ops = a
  refine ⟨fun i => ⟨a.children_pairwise i, fun c => children_lt⟩, ?_, ?_, ?_,
    fun template ids => ⟨a.stores_leaf template, a.stores_intern template ids⟩⟩
  · rintro i j hi hj hne ⟨htemplate, hchildren⟩
    exact hne (eq_of_same hi hj hchildren htemplate)
  · intro i j hi hj
    refine ⟨?_, eq_of_sameTree hi hj⟩
    rintro rfl
    exact sameTree_refl a i
  · intro more i hi
    have hext := extends_run a more
    exact ⟨Nat.lt_of_lt_of_le hi hext.size_le, hext.template hi, hext.children hi⟩

end GrammarInduction.Arena
