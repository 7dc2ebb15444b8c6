import GrammarInduction.Arena.Traversal

/-!
# Writing trees

A tree is written in two ways. `sortedText` is one line, `template {child | child}`, the children in
the order of their own lines, so that it does not depend on the numbers of nodes. `drawing` has one
line for each node, with branches drawn in front of it; siblings are in the order of their
`sortedText`.
-/

namespace GrammarInduction

namespace Arena

/-- One node written: its line, and the drawing of the tree below it. -/
structure Written where
  line : String
  rows : List String

/-- The rows of a child below its parent. -/
def branch (isLast : Bool) : List String → List String
  | [] => []
  | first :: rest =>
    let (fork, trunk) := if isLast then ("└── ", "    ") else ("├── ", "│   ")
    (fork ++ first) :: rest.map (trunk ++ ·)

/-- The rows of children, one after the other. -/
def branches : List (List String) → List String
  | [] => []
  | [rows] => branch true rows
  | rows :: rest => branch false rows ++ branches rest

/-- A node written, given its children written. -/
def write (template : Template) (isLeaf : Bool) (children : List Written) : Written :=
  let sorted := children.mergeSort fun a b => decide (a.line ≤ b.line)
  let line :=
    if isLeaf then template.render
    else template.render ++ " \x7b" ++ " | ".intercalate (sorted.map Written.line) ++ "\x7d"
  ⟨line, template.toText Text.joinWords :: branches (sorted.map Written.rows)⟩

/-- The tree below a node written. -/
def written (a : Arena) (root : Nat) : Written :=
  ((a.evaluate (fun i cs => write (a.template i) (a.isLeaf i) cs) root).lookup root).getD ⟨"", []⟩

/-- The tree below a node in one line. -/
def sortedText (a : Arena) (root : Nat) : String := (a.written root).line

/-- The tree below a node drawn. -/
def drawing (a : Arena) (root : Nat) : String :=
  String.join ((a.written root).rows.map (· ++ "\n"))

end Arena

end GrammarInduction
