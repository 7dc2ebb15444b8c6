/-!
# Optimal alignments

An alignment of two sequences is a list of edit operations that goes through both from left to
right. Its cost is the number of operations that are not `keep`.

* `Valid xs ys ops` says that `ops` goes through `xs` and `ys`, keeping equal elements and
  substituting different ones.
* `table` finds the least cost entry by entry; each entry holds a cost and a `Walks`, a shared graph
  of the best moves. `distance` and `alignments` read the last entry.
* A limit takes the first alignments of the list (`alignments_some`).

Alignments are listed by their last operation, then by the one before it and so on: a step through
both sequences comes before a deletion, and a deletion before an insertion.
-/

namespace GrammarInduction

/-- One step of an alignment, as seen from the first sequence. -/
inductive EditOp where
  /-- The next elements are equal; both sequences move on. -/
  | keep
  /-- The next elements differ; both sequences move on. -/
  | substitute
  /-- The first sequence moves on. -/
  | delete
  /-- The second sequence moves on. -/
  | insert
  deriving DecidableEq, Repr

namespace EditOp

/-- The cost of an operation. -/
def cost : EditOp → Nat
  | keep => 0
  | _ => 1

/-- The step through both sequences, given whether the elements are equal. -/
def diagonal (same : Bool) : EditOp := if same then keep else substitute

end EditOp

namespace Alignment

/-- The cost of a list of operations. -/
def cost : List EditOp → Nat
  | [] => 0
  | op :: ops => op.cost + cost ops

/-- The moves that lead back from an entry of the table, each with the walks behind it. Entries
share what lies behind them. -/
inductive Walks where
  /-- No walk at all. -/
  | none
  /-- The walk without operations. -/
  | start
  /-- Walks whose last operation goes through both sequences (`same` tells whether it keeps), or
  deletes, or inserts. -/
  | fork (same : Bool) (diagonal delete insert : Walks)
  deriving Repr

namespace Walks

/-- All walks, each last operation first, in the order of listing. -/
def backwards : Walks → List (List EditOp)
  | none => []
  | start => [[]]
  | fork same d e i =>
    d.backwards.map (EditOp.diagonal same :: ·) ++ e.backwards.map (.delete :: ·) ++
      i.backwards.map (.insert :: ·)

/-- The first `limit` walks in the order of listing, each put in front of `path`. -/
def collect : Walks → List EditOp → Nat → List (List EditOp)
  | _, _, 0 => []
  | none, _, _ + 1 => []
  | start, path, _ + 1 => [path]
  | fork same d e i, path, limit + 1 =>
    let ds := d.collect (EditOp.diagonal same :: path) (limit + 1)
    let es := e.collect (.delete :: path) (limit + 1 - ds.length)
    let is := i.collect (.insert :: path) (limit + 1 - ds.length - es.length)
    ds ++ (es ++ is)

theorem collect_eq_take (w : Walks) (path : List EditOp) (limit : Nat) :
    w.collect path limit = (w.backwards.map fun ops => ops.reverse ++ path).take limit := by
  induction w generalizing path limit with
  | none => cases limit <;> simp [collect, backwards]
  | start => cases limit <;> simp [collect, backwards]
  | fork same d e i ihd ihe ihi =>
    cases limit with
    | zero => simp [collect]
    | succ limit =>
      simp only [collect, ihd, ihe, ihi, backwards, List.map_append, List.map_map,
        List.take_append, List.append_assoc, List.length_take, List.length_map]
      simp only [Function.comp_def, List.reverse_cons, List.append_assoc, List.singleton_append]
      congr 2
      · congr 1
        omega
      · congr 1
        omega

end Walks

/-- An entry of the table: the least cost of aligning two beginnings, and how it is reached. -/
structure Entry where
  cost : Nat
  walks : Walks
  deriving Repr

namespace Entry

/-- Nothing aligned with nothing. -/
def start : Entry := ⟨0, .start⟩

/-- One more deletion. -/
def delete (e : Entry) : Entry := ⟨e.cost + 1, .fork false .none e.walks .none⟩

/-- One more insertion. -/
def insert (e : Entry) : Entry := ⟨e.cost + 1, .fork false .none .none e.walks⟩

/-- The best of a step through both sequences from `d`, a deletion from `e` and an insertion from
`i`, with every move that reaches the least cost. -/
def best (same : Bool) (d e i : Entry) : Entry :=
  let through := d.cost + (EditOp.diagonal same).cost
  let least := min through (min (e.cost + 1) (i.cost + 1))
  let pick (reached : Nat) (w : Walks) : Walks := if reached = least then w else .none
  ⟨least, .fork same (pick through d.walks) (pick (e.cost + 1) e.walks) (pick (i.cost + 1) i.walks)⟩

end Entry

variable {α : Type u} [DecidableEq α]

/-- The row of `x :: xs` from the row of `xs`: the entry at `ys` and the entries at its tails. -/
def nextRow (x : α) : List α → Entry → List Entry → Entry × List Entry
  | [], above, _ => (above.delete, [])
  | _ :: _, above, [] => (above.delete, [])
  | y :: ys, above, across :: rest =>
    let (left, entries) := nextRow x ys across rest
    (.best (decide (x = y)) across above left, left :: entries)

/-- The row of the empty sequence. -/
def firstRow : List α → Entry × List Entry
  | [] => (.start, [])
  | _ :: ys =>
    let (left, entries) := firstRow ys
    (left.insert, left :: entries)

/-- The row of `xs`: entries of `xs` against `ys` and all its tails. -/
def row (ys : List α) : List α → Entry × List Entry
  | [] => firstRow ys
  | x :: xs =>
    let (above, rest) := row ys xs
    nextRow x ys above rest

/-- The entry of two whole sequences. The rows run over the reversed sequences, so that a tail of a
reversed sequence is a beginning of the sequence. -/
def table (xs ys : List α) : Entry := (row ys.reverse xs.reverse).1

/-- The least cost of an alignment. -/
def distance (xs ys : List α) : Nat := (table xs ys).cost

/-- The alignments of least cost, all of them or the first few. -/
def alignments (limit : Option Nat) (xs ys : List α) : List (List EditOp) :=
  match limit with
  | none => (table xs ys).walks.backwards.map List.reverse
  | some limit => (table xs ys).walks.collect [] limit

theorem alignments_some (limit : Nat) (xs ys : List α) :
    alignments (some limit) xs ys = (alignments none xs ys).take limit := by
  simp only [alignments, Walks.collect_eq_take, List.append_nil]

/-! ## What is computed -/

/-- Whether a list of operations goes through both sequences. -/
inductive Valid : List α → List α → List EditOp → Prop
  | nil : Valid [] [] []
  | keep (x : α) {xs ys : List α} {ops : List EditOp} :
      Valid xs ys ops → Valid (x :: xs) (x :: ys) (.keep :: ops)
  | substitute {x y : α} {xs ys : List α} {ops : List EditOp} :
      x ≠ y → Valid xs ys ops → Valid (x :: xs) (y :: ys) (.substitute :: ops)
  | delete (x : α) {xs ys : List α} {ops : List EditOp} :
      Valid xs ys ops → Valid (x :: xs) ys (.delete :: ops)
  | insert (y : α) {xs ys : List α} {ops : List EditOp} :
      Valid xs ys ops → Valid xs (y :: ys) (.insert :: ops)

end Alignment

end GrammarInduction
