import GrammarInduction.Walk

/-!
# Walks with a list of nodes to visit

Two walks keep a list of the nodes that are still to be visited, and take one of them in each turn.

* `Walk.byQueue` takes the one that came first, and puts those of its neighbours that were not seen
  yet at the end. It lists the nodes in the order in which they are visited.
* `Walk.byStack` takes the one that came last, and puts all its neighbours on top of the others; a
  node that was visited before is passed over. It lists the nodes that are visited.

Nodes may lead back to themselves. If `nodes` are those that have neighbours, then either walk takes
a node no more often than `Walk.turns` says.
-/

namespace GrammarInduction.Walk

universe u

variable {α : Type u}

/-- How often a node can be put on a list: once at first, and once for each node that has neighbours
and each of their neighbours. -/
def turns (next : α → List α) (nodes : List α) : Nat := (nodes.flatMap fun a => a :: next a).length + 1

variable [BEq α]

/-- The nodes that are visited in at most so many turns, first those on the queue, in their order;
`seen` holds the nodes that were put on the queue before. -/
def byQueue (next : α → List α) : Nat → List α → List α → List α
  | 0, _, _ => []
  | _ + 1, _, [] => []
  | turns + 1, seen, a :: queue =>
    let fresh := unseen seen (next a)
    a :: byQueue next turns (seen ++ fresh) (queue ++ fresh)

/-- The nodes that are visited in at most so many turns, after those visited before. -/
def byStack (next : α → List α) : Nat → List α → List α → List α
  | 0, visited, _ => visited
  | _ + 1, visited, [] => visited
  | turns + 1, visited, a :: stack =>
    if visited.contains a then byStack next turns visited stack
    else byStack next turns (visited ++ [a]) ((next a).reverse ++ stack)

end GrammarInduction.Walk
