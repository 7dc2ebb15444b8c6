/-!
# Detokenizers

A detokenizer joins pieces to a text.

* `joinSpaced` puts one space between any two pieces.
* `joinWords` puts one space between two pieces unless the second is a mark that closes, or the
  first opens a bracket.
-/

namespace GrammarInduction

/-- A way to join pieces to a text. -/
abbrev Detokenizer := List String → String

namespace Text

/-- The marks written close to what comes before. -/
def closingMarks : List String := [",", ".", "!", "?", ";", ":", ")"]

/-- Whether `joinWords` leaves out the space between two neighbours. -/
def sticks (before after : String) : Bool :=
  before == "(" || closingMarks.contains after

/-- What follows a piece `before` in the joined text. -/
def joinWordsAfter : String → List String → String
  | _, [] => ""
  | before, piece :: rest =>
    (if sticks before piece then "" else " ") ++ piece ++ joinWordsAfter piece rest

/-- Pieces with spaces between them, marks of punctuation attached. -/
def joinWords : Detokenizer
  | [] => ""
  | piece :: rest => piece ++ joinWordsAfter piece rest

/-- Pieces with one space between any two. -/
def joinSpaced : Detokenizer := " ".intercalate

end Text

end GrammarInduction
