import GrammarInduction.Template

/-!
# Arenas of template trees

An `Arena` stores nodes, each a template with children that are nodes stored before it. A node is
stored once: asking for a node that is there already gives the old one, so that trees are equal
exactly if their roots are the same node. Nodes are never changed or taken out.

* `Arena.intern` is the only operation that stores a node.
* The type keeps what makes this work: children are strictly ascending and older than their parent
  (`children_lt`, `children_pairwise`), and no two nodes have equal templates and the same children.
* `Extends` says that one arena holds all nodes of another; `extends_intern` is the reason that
  a walk may go on in an arena that grows under it.

Templates are compared by `==`; the arena keeps the template of the node that was stored first.
-/

namespace GrammarInduction

/-- A template and the nodes below it, by their numbers in the order of storing. -/
structure Node where
  template : Template
  children : List Nat
  deriving DecidableEq, Repr

namespace Node

/-- Whether two nodes have equal templates and the same children. -/
def same (a b : Node) : Bool := a.children == b.children && a.template == b.template

end Node

/-- A store of nodes. -/
structure Arena where
  /-- The nodes, oldest first. -/
  nodes : Array Node
  /-- Children are in ascending order. -/
  ascending : ∀ (i : Nat) (h : i < nodes.size), nodes[i].children.Pairwise (· < ·)
  /-- Children are older than their parent. -/
  older : ∀ (i : Nat) (h : i < nodes.size), ∀ c ∈ nodes[i].children, c < i
  /-- No node is stored twice. -/
  distinct : ∀ (i j : Nat) (hi : i < nodes.size) (hj : j < nodes.size), i < j →
    nodes[i].same nodes[j] = false

namespace Arena

/-- The arena without nodes. -/
def empty : Arena where
  nodes := #[]
  ascending := fun i h => absurd h (Nat.not_lt_zero i)
  older := fun i h => absurd h (Nat.not_lt_zero i)
  distinct := fun i _ hi => absurd hi (Nat.not_lt_zero i)

instance : Inhabited Arena := ⟨empty⟩

def size (a : Arena) : Nat := a.nodes.size

def isEmpty (a : Arena) : Bool := a.nodes.isEmpty

/-- The template of a node. -/
def template (a : Arena) (i : Nat) : Template :=
  match a.nodes[i]? with
  | some node => node.template
  | none => .empty

/-- The children of a node. -/
def children (a : Arena) (i : Nat) : List Nat :=
  match a.nodes[i]? with
  | some node => node.children
  | none => []

/-- Whether a node has no children. -/
def isLeaf (a : Arena) (i : Nat) : Bool := (a.children i).isEmpty

theorem children_lt {a : Arena} {i c : Nat} (h : c ∈ a.children i) : c < i := by
  unfold children at h
  split at h
  next node hi =>
    obtain ⟨hlt, rfl⟩ := Array.getElem?_eq_some_iff.1 hi
    exact a.older i hlt c h
  · simp at h

theorem children_pairwise (a : Arena) (i : Nat) : (a.children i).Pairwise (· < ·) := by
  unfold children
  split
  next node hi =>
    obtain ⟨hlt, rfl⟩ := Array.getElem?_eq_some_iff.1 hi
    exact a.ascending i hlt
  · exact .nil

/-! ## Storing nodes -/

/-- The stored nodes of a list, in ascending order and each once. -/
def arrange (a : Arena) (ids : List Nat) : List Nat :=
  (List.range a.size).filter ids.contains

theorem mem_arrange {a : Arena} {ids : List Nat} {i : Nat} :
    i ∈ a.arrange ids ↔ i < a.size ∧ i ∈ ids := by
  simp [arrange]

theorem arrange_pairwise (a : Arena) (ids : List Nat) : (a.arrange ids).Pairwise (· < ·) :=
  List.pairwise_lt_range.filter _

theorem lt_of_mem_arrange (a : Arena) (ids : List Nat) :
    ∀ c ∈ a.arrange ids, c < a.nodes.size :=
  fun _ hc => (mem_arrange.1 hc).1

theorem fresh_of_findIdx? (a : Arena) {node : Node}
    (h : a.nodes.findIdx? (fun n => n.same node) = none) : ∀ n ∈ a.nodes, n.same node = false :=
  fun n hn => by simpa using Array.findIdx?_eq_none_iff.1 h n hn

/-- Puts a new node at the end. -/
def push (a : Arena) (node : Node) (ascending : node.children.Pairwise (· < ·))
    (older : ∀ c ∈ node.children, c < a.nodes.size)
    (fresh : ∀ n ∈ a.nodes, n.same node = false) : Arena where
  nodes := a.nodes.push node
  ascending := by
    intro i h
    rw [Array.getElem_push]
    split
    next hi => exact a.ascending i hi
    · exact ascending
  older := by
    intro i h c hc
    rw [Array.getElem_push] at hc
    split at hc
    next hi => exact a.older i hi c hc
    next hi =>
      have hsize := h
      rw [Array.size_push] at hsize
      have := older c hc
      omega
  distinct := by
    intro i j hi hj hij
    rw [Array.size_push] at hi hj
    have hi' : i < a.nodes.size := by omega
    rw [Array.getElem_push, Array.getElem_push, dif_pos hi']
    split
    next hj' => exact a.distinct i j hi' hj' hij
    · exact fresh _ (Array.getElem_mem hi')

/-- The node with a template and children: the stored one, or else a new one. -/
def intern (a : Arena) (template : Template) (children : List Nat) : Arena × Nat :=
  let node : Node := ⟨template, a.arrange children⟩
  match h : a.nodes.findIdx? fun n => n.same node with
  | some i => (a, i)
  | none => (a.push node (a.arrange_pairwise children) (a.lt_of_mem_arrange children)
      (a.fresh_of_findIdx? h), a.size)

/-- The node with a template and no children. -/
def leaf (a : Arena) (template : Template) : Arena × Nat := a.intern template []

/-! ## Growth -/

/-- Whether `b` holds the nodes of `a` in their places. -/
def Extends (b a : Arena) : Prop := ∀ i, i < a.size → b.nodes[i]? = a.nodes[i]?

theorem Extends.refl (a : Arena) : a.Extends a := fun _ _ => rfl

theorem Extends.size_le {a b : Arena} (h : b.Extends a) : a.size ≤ b.size := by
  rcases Nat.eq_zero_or_pos a.size with h0 | hpos
  · omega
  · have hlast := h (a.size - 1) (by omega)
    have hlt : a.size - 1 < a.nodes.size := by unfold size at *; omega
    rw [Array.getElem?_eq_getElem hlt] at hlast
    obtain ⟨hb, -⟩ := Array.getElem?_eq_some_iff.1 hlast
    unfold size at *
    omega

theorem Extends.trans {a b c : Arena} (hcb : c.Extends b) (hba : b.Extends a) : c.Extends a :=
  fun i hi => (hcb i (Nat.lt_of_lt_of_le hi hba.size_le)).trans (hba i hi)

theorem Extends.template {a b : Arena} (h : b.Extends a) {i : Nat} (hi : i < a.size) :
    b.template i = a.template i := by
  simp [Arena.template, h i hi]

theorem Extends.children {a b : Arena} (h : b.Extends a) {i : Nat} (hi : i < a.size) :
    b.children i = a.children i := by
  simp [Arena.children, h i hi]

theorem extends_push (a : Arena) (node : Node) (asc : node.children.Pairwise (· < ·))
    (older : ∀ c ∈ node.children, c < a.nodes.size) (fresh : ∀ n ∈ a.nodes, n.same node = false) :
    (a.push node asc older fresh).Extends a := by
  intro i hi
  have hi' : i < a.nodes.size := hi
  simp [push, Array.getElem?_push, Nat.ne_of_lt hi']

theorem extends_intern (a : Arena) (template : Template) (children : List Nat) :
    (a.intern template children).1.Extends a := by
  simp only [intern]
  split
  · exact Extends.refl a
  next h =>
    exact extends_push a _ (a.arrange_pairwise children) (a.lt_of_mem_arrange children)
      (a.fresh_of_findIdx? h)

theorem intern_lt_size (a : Arena) (template : Template) (children : List Nat) :
    (a.intern template children).2 < (a.intern template children).1.size := by
  simp only [intern]
  split
  next i h =>
    obtain ⟨hi, -⟩ := Array.findIdx?_eq_some_iff_getElem.1 h
    exact hi
  · simp [push, size]

/-- The node that `intern` gives has the template and the children asked for. -/
theorem intern_same (a : Arena) (template : Template) (children : List Nat) :
    (a.intern template children).1.children (a.intern template children).2 = a.arrange children ∧
      ((a.intern template children).1.template (a.intern template children).2 == template) =
        true := by
  simp only [intern]
  split
  next i h =>
    obtain ⟨hi, hsame, -⟩ := Array.findIdx?_eq_some_iff_getElem.1 h
    simpa [Node.same, Arena.children, Arena.template, hi] using hsame
  · simp [push, Arena.children, Arena.template, size]

end Arena

end GrammarInduction
