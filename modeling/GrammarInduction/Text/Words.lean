import GrammarInduction.Text.Blank

/-!
# Tokenizers

A tokenizer cuts a text into pieces. There are three of them here.

* `words` cuts at blanks and splits punctuation off both ends of a word, one mark at a time.
* `chunks` cuts at blanks and does nothing else.
* `characters` makes every character a piece, blanks included.

For `words` and `chunks` the pieces put together again are the text less its blanks
(`flatten_chunksOf`, `flatten_edges`).
-/

namespace GrammarInduction

/-- A way to cut a text into pieces. -/
abbrev Tokenizer := String → List String

namespace Text

/-- The marks that `words` splits off the ends of a word. -/
def punctuation : List Char := [',', '.', '!', '?', ';', ':', '"', '(', ')']

def isPunctuation (c : Char) : Bool := punctuation.contains c

/-- The maximal runs of characters that are not blank, in order; `run` is the run that the text
before has begun, last character first. -/
def chunksFrom : List Char → List Char → List (List Char)
  | [], [] => []
  | run, [] => [run.reverse]
  | run, c :: rest =>
    if isBlank c then
      if run.isEmpty then chunksFrom [] rest else run.reverse :: chunksFrom [] rest
    else chunksFrom (c :: run) rest

/-- The maximal runs of characters that are not blank, in order. -/
def chunksOf (text : List Char) : List (List Char) := chunksFrom [] text

theorem flatten_chunksFrom (run text : List Char) :
    (chunksFrom run text).flatten = run.reverse ++ text.filter (fun c => !isBlank c) := by
  induction text generalizing run with
  | nil => cases run <;> simp [chunksFrom]
  | cons c rest ih =>
    by_cases hc : isBlank c = true
    · cases run <;> simp [chunksFrom, hc, ih]
    · simp [chunksFrom, hc, ih]

theorem flatten_chunksOf (text : List Char) :
    (chunksOf text).flatten = text.filter fun c => !isBlank c := by
  simp [chunksOf, flatten_chunksFrom]

/-- A word with the punctuation at its ends split off mark by mark. -/
def edges (word : List Char) : List (List Char) :=
  let front := word.takeWhile isPunctuation
  let rest := word.dropWhile isPunctuation
  let back := (rest.reverse.takeWhile isPunctuation).reverse
  let core := (rest.reverse.dropWhile isPunctuation).reverse
  front.map ([·]) ++ (if core.isEmpty then [] else [core]) ++ back.map ([·])

theorem flatten_edges (word : List Char) : (edges word).flatten = word := by
  have flat (cs : List Char) : (cs.map ([·])).flatten = cs := by
    induction cs <;> simp_all
  have split (cs : List Char) :
      (cs.reverse.dropWhile isPunctuation).reverse ++ (cs.reverse.takeWhile isPunctuation).reverse =
        cs := by
    rw [← List.reverse_append, List.takeWhile_append_dropWhile, List.reverse_reverse]
  have core (cs : List Char) : (if cs.isEmpty then [] else [cs]).flatten = cs := by
    cases cs <;> simp
  simp only [edges, List.flatten_append, flat, core, List.append_assoc, split,
    List.takeWhile_append_dropWhile]

/-- Words and, apart from them, the punctuation marks at their ends. -/
def words : Tokenizer := fun text =>
  ((chunksOf text.toList).flatMap edges).map String.ofList

/-- Runs of characters that are not blank. -/
def chunks : Tokenizer := fun text =>
  (chunksOf text.toList).map String.ofList

/-- Single characters. -/
def characters : Tokenizer := fun text =>
  text.toList.map String.singleton

end Text

end GrammarInduction
