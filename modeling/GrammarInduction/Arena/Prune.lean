import GrammarInduction.Arena.Rebuild

/-!
# Pruning and flattening trees

* `prune` takes out children whose leaves are all reached through their siblings, those with fewest
  leaves first.
* `flatten` bounds the depth: only nodes near the leaves are kept, as children of the root.
-/

namespace GrammarInduction

namespace Arena

/-- The nodes of a list without those whose leaves all occur among the leaves of the nodes kept so
far and of those still to come; each node comes with its leaves. -/
def keepNeeded (kept : List (Nat × List Nat)) : List (Nat × List Nat) → List (Nat × List Nat)
  | [] => kept
  | node :: rest =>
    let elsewhere := (kept ++ rest).flatMap Prod.snd
    if node.2.all elsewhere.contains then keepNeeded kept rest else keepNeeded (kept ++ [node]) rest

/-- The new node of an inner node in `prune`. -/
def pruneStep (a b : Arena) (i : Nat) (images : List Nat) : Arena × Nat :=
  let withLeaves := images.map fun c => (c, b.leaves c)
  let sorted := withLeaves.mergeSort fun p q => p.2.length ≤ q.2.length
  b.intern (a.template i) ((keepNeeded [] sorted).map Prod.fst)

/-- The tree without children whose leaves are all reached through siblings. -/
def prune (a : Arena) (root : Nat) : Arena × Nat :=
  a.rebuild (a.onInner (pruneStep a)) a root

/-- The nodes below a root of depth at most `limit`, the highest on each path. -/
def shallow (a : Arena) (root limit : Nat) : List Nat :=
  let depths := a.depths root
  let isDeep (i : Nat) : Bool := i == root || limit < (depths.lookup i).getD 0
  let below (i : Nat) : List Nat := if isDeep i then a.children i else []
  (Walk.preorder below (levels root) [] root).filter fun i => !isDeep i

/-- The tree of depth at most `depth` whose root keeps its template: nodes that are too deep are
left out, and their children come under the root. -/
def flatten (a : Arena) (root depth : Nat) : Arena × Nat :=
  a.intern (a.template root) <|
    match depth with
    | 0 => []
    | limit + 1 => a.shallow root limit

end Arena

end GrammarInduction
