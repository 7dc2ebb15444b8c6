import GrammarInduction.Arena.Rebuild

/-!
# Collapsing trees

Two ways to take out inner nodes, both from the leaves up.

* `collapse` dissolves a child with the template of its parent in the parent, and joins children
  with equal templates to one.
* `splice` dissolves a child that shares a slot with its parent and says no more than the values of
  the slots say already.
-/

namespace GrammarInduction

namespace Arena

/-- New children grouped by template; the children of a child with the template `template` come in
place of it. -/
def groupByTemplate (b : Arena) (template : Template) (images : List Nat) :
    OrderedMap Template (OrderedSet Nat) :=
  let lifted := images.flatMap fun c => if b.template c == template then b.children c else [c]
  lifted.foldl
    (fun groups c => groups.update (b.template c) fun known => (known.getD .empty).insert c) .empty

/-- The node for a group: its only member, or a node with the children of all members. -/
def joinGroup (b : Arena) (template : Template) (group : OrderedSet Nat) : Arena × Nat :=
  match group.only? with
  | some c => (b, c)
  | none => b.intern template (group.toList.flatMap b.children)

/-- The nodes for groups, one after the other. -/
def joinGroups (b : Arena) : List (Template × OrderedSet Nat) → Arena × List Nat
  | [] => (b, [])
  | (template, group) :: rest =>
    let (b, c) := joinGroup b template group
    let (b, cs) := joinGroups b rest
    (b, c :: cs)

/-- The new node of an inner node in `collapse`. -/
def collapseStep (a b : Arena) (i : Nat) (images : List Nat) : Arena × Nat :=
  let template := a.template i
  let (b, children) := joinGroups b (groupByTemplate b template images).entries
  b.intern template children

/-- The tree in which inner nodes that repeat the template of their parent are dissolved, and siblings with
equal templates are joined. -/
def collapse (a : Arena) (root : Nat) : Arena × Nat :=
  a.rebuild (a.onInner (collapseStep a)) a root

/-- Whether a child can be dissolved in a parent with the given template. -/
def isRedundant (sets : ValueSets) (template child : Template) : Bool :=
  child.slots.any template.slots.contains && template.encompasses child sets

/-- The new node of an inner node in `splice`. -/
def spliceStep (sets : ValueSets) (a b : Arena) (i : Nat) (images : List Nat) : Arena × Nat :=
  let template := a.template i
  b.intern template <| images.flatMap fun c =>
    if isRedundant sets template (b.template c) then b.children c else [c]

/-- The tree in which inner nodes that the values of the slots make redundant are dissolved. -/
def splice (sets : ValueSets) (a : Arena) (root : Nat) : Arena × Nat :=
  a.rebuild (a.onInner (spliceStep sets a)) a root

end Arena

end GrammarInduction
