import GrammarInduction.Arena.Traversal
import GrammarInduction.SlotNames
import GrammarInduction.Template.Merge

/-!
# Rebuilding trees from the leaves up

`rebuild` goes through the nodes at and below a root, children before parents, and stores a new node
for each; a step is given the new nodes of the children. Nodes that are there stay as they are.

* `rename` gives slots new names, and `nameSlots` gives every anonymous slot a fresh one.
* `recalculate` makes the template of each inner node the merge of its children's templates again,
  unless that would come out as general as the template itself.
-/

namespace GrammarInduction

namespace Arena

/-- The new node of a root, given a step that makes the new node of each node from the new nodes of
its children. -/
def rebuild (a : Arena) (step : σ → Nat → List Nat → σ × Nat) (state : σ) (root : Nat) : σ × Nat :=
  let (state, images) := Walk.sweep a.children step (a.postorder root) state []
  (state, (images.lookup root).getD root)

/-- A step that leaves leaves alone. -/
def onInner (a : Arena) (step : σ → Nat → List Nat → σ × Nat) (state : σ) (i : Nat)
    (images : List Nat) : σ × Nat :=
  if a.isLeaf i then (state, i) else step state i images

/-! ## Renaming -/

/-- The tree with its slots renamed. -/
def rename (names : OrderedMap Slot Slot) (a : Arena) (root : Nat) : Arena × Nat :=
  if names.isEmpty then (a, root)
  else
    a.rebuild (fun (b : Arena) i images => b.intern ((a.template i).rename names) images) a root

/-- Fresh names for the anonymous slots of a list, each slot named once. -/
def freshNames : List Slot → OrderedMap Slot Slot → NameSource → OrderedMap Slot Slot
  | [], names, _ => names
  | slot :: rest, names, source =>
    if slot.isNamed || names.contains slot then freshNames rest names source
    else
      let (name, source) := source.next
      freshNames rest (names.insert slot (.named name)) source

/-- The tree with every anonymous slot named, by names of the source that no slot of the tree
has. -/
def nameSlots (source : NameSource) (a : Arena) (root : Nat) : Arena × Nat :=
  let slots := a.slotsBreadthFirst root
  let source := (slots.filterMap Slot.name?).foldl NameSource.reserve source
  a.rename (freshNames slots .empty source) root

/-! ## Recalculating templates -/

/-- The new node of an inner node: the merge of the templates of its new children. -/
def recalculateStep (minimalVariables : Bool) (a : Arena) (state : Arena × Nat) (i : Nat)
    (images : List Nat) : (Arena × Nat) × Nat :=
  let (b, supply) := state
  let current := a.template i
  let (merged, supply) :=
    Template.mergeAll (images.map b.template) minimalVariables (some current) supply
  let (b, image) := b.intern (merged.getD current) images
  ((b, supply), image)

/-- The tree with the templates of inner nodes merged anew, and the supply after. -/
def recalculate (minimalVariables : Bool) (a : Arena) (root supply : Nat) : (Arena × Nat) × Nat :=
  let ((b, supply), image) :=
    a.rebuild (a.onInner (recalculateStep minimalVariables a)) (a, supply) root
  ((b, image), supply)

end Arena

end GrammarInduction
