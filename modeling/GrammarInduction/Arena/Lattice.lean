import GrammarInduction.Arena.Traversal

/-!
# Lattices of templates

`lattice` adds an edge to every node of a tree from each most specific node that covers it. The
search for these starts at the root and goes down as long as some child covers the node sought. An
edge that would close a cycle on the way down is left out.
-/

namespace GrammarInduction

namespace Arena

/-- The children of a node that cover a template. -/
def coveringChildren (a : Arena) (target : Template) (i : Nat) : List Nat :=
  (a.children i).filter fun c => (a.template c).covers target

/-- The nodes at which the search for what covers a template ends. -/
def mostSpecific (a : Arena) (root : Nat) (target : Template) : List Nat :=
  (Walk.preorder (a.coveringChildren target) (levels root) [] root).filter fun i =>
    (a.coveringChildren target i).isEmpty

/-- The new edges of a tree, each from a parent to its new child. -/
def newEdges (a : Arena) (root : Nat) : List (Nat × Nat) :=
  (a.descendants root).flatMap fun d =>
    let below := a.descendants d
    ((a.mostSpecific root (a.template d)).filter fun i => !below.contains i).map fun i => (i, d)

/-- The old and then the new children of a node. -/
def childrenWith (a : Arena) (extra : List (Nat × Nat)) (i : Nat) : List Nat :=
  a.children i ++ (extra.filter fun e => e.1 == i).map Prod.snd

/-- The node for a node with its new children, by recursion along paths without repetition; `path`
holds the nodes above, and `known` the nodes made so far. -/
def attach (a : Arena) (extra : List (Nat × Nat)) :
    Nat → List Nat → Arena × List (Nat × Nat) → Nat → (Arena × List (Nat × Nat)) × Nat
  | 0, _, state, i => (state, i)
  | steps + 1, path, (b, known), i =>
    match known.lookup i with
    | some image => ((b, known), image)
    | none =>
      let below := (a.childrenWith extra i).filter fun c => !(i :: path).contains c
      let ((b, known), images) :=
        below.foldl
          (fun (state, images) c =>
            let (state, image) := attach a extra steps (i :: path) state c
            (state, images ++ [image]))
          ((b, known), [])
      let (b, image) := b.intern (a.template i) images
      ((b, (i, image) :: known), image)

/-- The tree with an edge from every most specific node that covers a node to that node. -/
def lattice (a : Arena) (root : Nat) : Arena × Nat :=
  let ((b, _), image) := attach a (a.newEdges root) (a.size + 1) [] (a, []) root
  (b, image)

end Arena

end GrammarInduction
