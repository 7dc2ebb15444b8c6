import GrammarInduction.Arena.Traversal
import GrammarInduction.Learner.Candidate

/-!
# States of learning

A `LearnerState` holds the active templates, those that still have to be merged, and the children
found so far for each merged template.

* `addParent` records a merge: the merged template becomes active if it is new, and the templates
  under it cease to be active.
* `buildTree` stores the tree below the last active template. A template that comes back on the way
  down is left out, and so is a child that is reached through another child.
-/

namespace GrammarInduction

/-- The active templates, and the children of merged ones. -/
structure LearnerState where
  active : OrderedSet Template
  children : OrderedMap Template (OrderedSet Template)

namespace LearnerState

/-- All templates of a list are active, and nothing is merged yet. -/
def ofTemplates (templates : List Template) : LearnerState := ⟨.ofList templates, .empty⟩

/-- Whether more than one template is active. -/
def isUnfinished (s : LearnerState) : Bool := 1 < s.active.size

/-- Whether both templates of a candidate are active. -/
def isValid (s : LearnerState) (c : Candidate) : Bool :=
  s.active.contains c.first && s.active.contains c.second

/-- Puts a template under a parent, unless they are equal. -/
def addChild (parent : Template) (s : LearnerState) (child : Template) : LearnerState :=
  if child == parent then s
  else
    { active := s.active.erase child
      children := s.children.update parent fun known => (known.getD .empty).insert child }

/-- Makes a template the parent of others; it becomes active if it is no parent yet. -/
def addParent (s : LearnerState) (parent : Template) (below : List Template) : LearnerState :=
  let s :=
    if s.children.contains parent then s
    else { active := s.active.insert parent, children := s.children.insert parent .empty }
  below.foldl (addChild parent) s

/-! ## The learned tree -/

/-- What is built so far: the arena, and the nodes of the templates that are done. -/
structure Building where
  arena : Arena
  built : List (Template × Nat)

/-- The node of a template that is done. -/
def Building.find? (b : Building) (template : Template) : Option Nat :=
  (b.built.find? fun p => p.1 == template).map Prod.snd

/-- The children that are not reached through other children. -/
def direct (arena : Arena) (ids : List Nat) : List Nat :=
  let below := ids.flatMap arena.strictDescendants
  ids.filter fun c => !below.contains c

/-- The node of a template, with `path` the templates above it. The templates with children on a
path differ, so that there are no more steps than such templates. -/
def buildNode (s : LearnerState) : Nat → List Template → Building → Template → Building × Nat
  | 0, _, b, template =>
    let (arena, i) := b.arena.leaf template
    (⟨arena, b.built⟩, i)
  | steps + 1, path, b, template =>
    match b.find? template with
    | some i => (b, i)
    | none =>
      match s.children.get? template with
      | none =>
        let (arena, i) := b.arena.leaf template
        (⟨arena, (template, i) :: b.built⟩, i)
      | some below =>
        let path := template :: path
        let (b, ids) :=
          (below.toList.filter fun t => !path.contains t).foldl
            (fun (b, ids) t =>
              let (b, i) := buildNode s steps path b t
              (b, ids ++ [i]))
            (b, [])
        let (arena, i) := b.arena.intern template (direct b.arena ids)
        (⟨arena, (template, i) :: b.built⟩, i)

/-- Stores the tree below the one active template. -/
def buildTree (s : LearnerState) (arena : Arena) : Except Failure (Arena × Nat) :=
  match s.active.only? with
  | some root =>
    let (b, i) := s.buildNode (s.children.size + 1) [] ⟨arena, []⟩ root
    .ok (b.arena, i)
  | none => .error (.rootNotUnique s.active.size)

end LearnerState

end GrammarInduction
