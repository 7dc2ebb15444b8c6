/-!
# Searching with a stack

`Walk.ordering?` lists the nodes that can be reached from a first node, each after its neighbours.
It goes in depth first with a stack of what is still to be done: nodes to enter, and nodes to leave
when all that was put above them is done.

A node that is entered and not left is *open*. When a node is entered, its neighbours go on the
stack, the last of them on top, but for those that are left already; so a node is on the stack once
for each node that brought it there, and it is passed over when it has been left by its turn. The
search gives up when it comes upon an open node, for then this node leads back to itself.
-/

namespace GrammarInduction.Walk

universe u

/-- What is still to be done at a node. -/
inductive Task (α : Type u) where
  | enter (node : α)
  | leave (node : α)

/-- The state of a search. -/
structure Search (α : Type u) where
  /-- What is still to be done, first what comes next. -/
  stack : List (Task α)
  /-- The nodes that are entered and not left, the last one first. -/
  opened : List α
  /-- The nodes that are left, in the order in which they were. -/
  order : List α

namespace Search

variable {α : Type u} [BEq α]

/-- Puts a neighbour on the stack, unless it is left; there is no way on if it is open. -/
def push (s : Search α) (a : α) : Option (Search α) :=
  if s.opened.contains a then none
  else if s.order.contains a then some s
  else some { s with stack := .enter a :: s.stack }

/-- Enters a node, unless it is left; there is no way on if it is open. -/
def enter (next : α → List α) (s : Search α) (a : α) : Option (Search α) :=
  if s.order.contains a then some s
  else if s.opened.contains a then none
  else (next a).foldlM push { s with stack := .leave a :: s.stack, opened := a :: s.opened }

/-- Leaves an open node. -/
def leave (s : Search α) (a : α) : Search α :=
  { s with opened := s.opened.erase a, order := s.order ++ [a] }

/-- Does what comes next, taken from the stack before. -/
def turn (next : α → List α) (s : Search α) : Task α → Option (Search α)
  | .enter a => s.enter next a
  | .leave a => some (s.leave a)

/-- The order in which the nodes are left, when nothing is to be done any more after at most so many
turns. -/
def run (next : α → List α) : Nat → Search α → Option (List α)
  | 0, _ => none
  | turns + 1, s =>
    match s.stack with
    | [] => some s.order
    | task :: rest => (turn next { s with stack := rest } task).bind (run next turns)

end Search

/-- The nodes reached from a node among `nodes`, each after its neighbours. To enter a node is put
on the stack once at first and once for each edge, and to leave it once. -/
def ordering? {α : Type u} [BEq α] (next : α → List α) (nodes : List α) (start : α) :
    Option (List α) :=
  Search.run next ((nodes.flatMap fun a => a :: next a).length + 2) ⟨[.enter start], [], []⟩

end GrammarInduction.Walk
