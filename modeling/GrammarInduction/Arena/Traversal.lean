import GrammarInduction.Arena
import GrammarInduction.Template.Filling
import GrammarInduction.SlotValues
import GrammarInduction.Walk

/-!
# Looking at trees

What can be read off the tree below a node, without storing anything.

* `descendants`, `leaves` and `postorder` list the nodes below a root, the root included.
* `depth` is the length of the longest path down to a leaf.
* `slotsBreadthFirst` lists the slots of all nodes, level by level.
* `slotValues?` gathers, over all edges, the values that the slots of the parent take to give the
  child. It fails on the first edge, in depth first order, whose parent does not cover its child.
-/

namespace GrammarInduction

namespace Arena

/-- A bound on the number of levels below a node: children have smaller numbers. -/
def levels (root : Nat) : Nat := root + 1

/-- A node and all nodes below it, each before its children. -/
def descendants (a : Arena) (root : Nat) : List Nat :=
  Walk.preorder a.children (levels root) [] root

/-- The nodes below a node. -/
def strictDescendants (a : Arena) (root : Nat) : List Nat :=
  (a.descendants root).filter fun i => !(i == root)

/-- The nodes without children at or below a node. -/
def leaves (a : Arena) (root : Nat) : List Nat := (a.descendants root).filter a.isLeaf

/-- A node and all nodes below it, each after its children. -/
def postorder (a : Arena) (root : Nat) : List Nat :=
  Walk.postorder a.children (levels root) [] root

/-- A node and all nodes below it, level by level. -/
def breadthFirst (a : Arena) (root : Nat) : List Nat :=
  Walk.breadthFirst a.children (levels root + 1) [] [root]

/-- The edges at and below a node in the order in which a walk in depth first meets them. -/
def edges (a : Arena) (root : Nat) : List (Nat × Nat) :=
  (Walk.edges a.children (levels root) ([], []) root).2

/-- A value for each node at or below a root, computed from the values of the children. -/
def evaluate (a : Arena) (f : Nat → List β → β) (root : Nat) : List (Nat × β) :=
  (Walk.sweep a.children (fun _ i values => ((), f i values)) (a.postorder root) () []).2

/-- The depth of a node whose children have the given depths. -/
def depthAbove : List Nat → Nat
  | [] => 0
  | d :: ds => ds.foldl max d + 1

/-- The depths of all nodes at or below a root. -/
def depths (a : Arena) (root : Nat) : List (Nat × Nat) :=
  a.evaluate (fun _ ds => depthAbove ds) root

/-- The length of the longest path from a node down to a leaf. -/
def depth (a : Arena) (root : Nat) : Nat := ((a.depths root).lookup root).getD 0

/-- The slots of the nodes at and below a node, level by level; a slot is listed for each node and
place in which it occurs. -/
def slotsBreadthFirst (a : Arena) (root : Nat) : List Slot :=
  (a.breadthFirst root).flatMap fun i => (a.template i).slots

/-- Joins the values that the slots of one node take to give another one. -/
def addEdge (a : Arena) (v : SlotValues) (edge : Nat × Nat) : Except Failure SlotValues :=
  ((a.template edge.1).slotValues? (a.template edge.2)).map v.addAll

/-- The values of all slots below a root. -/
def slotValues? (a : Arena) (root : Nat) : Except Failure SlotValues :=
  (a.edges root).foldlM a.addEdge .empty

end Arena

end GrammarInduction
