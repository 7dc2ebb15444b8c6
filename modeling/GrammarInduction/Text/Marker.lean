import GrammarInduction.Text.Words
import GrammarInduction.Token

/-!
# Slots written in a text

A named slot is written between angle brackets (`SlotStyle.angle`) or between hash signs
(`SlotStyle.hash`), an anonymous one as `[SLOT]` in either style. `pieces` cuts a text at the slots
written in it, from left to right; everything else is text for a tokenizer. `tokens` makes the
tokens, with fresh anonymous slots from the supply.
-/

namespace GrammarInduction

/-- How a named slot is written. -/
inductive SlotStyle where
  /-- Between angle brackets. -/
  | angle
  /-- Between hash signs. -/
  | hash
  deriving DecidableEq, Repr

namespace SlotStyle

def opening : SlotStyle → Char
  | angle => '<'
  | hash => '#'

def closing : SlotStyle → Char
  | angle => '>'
  | hash => '#'

end SlotStyle

namespace Text

/-- The characters of a slot's name: letters and digits of ASCII, `_` and `-`. -/
def isNameChar (c : Char) : Bool := c.isAlphanum || c == '_' || c == '-'

/-- The name at the front of a text, if it is not empty, and what follows it. -/
def name? (text : List Char) : Option (List Char × List Char) :=
  let name := text.takeWhile isNameChar
  if name.isEmpty then none else some (name, text.dropWhile isNameChar)

/-- A part of a text in which slots are written. -/
inductive Piece where
  /-- Text between slots. -/
  | text (content : List Char)
  /-- A named slot. -/
  | named (name : List Char)
  /-- An anonymous slot. -/
  | anonymous
  deriving DecidableEq, Repr

/-- The slot written at the front of a text and the number of characters it takes. -/
def slotAt? (style : SlotStyle) (text : List Char) : Option (Piece × Nat) :=
  if Slot.marker.toList.isPrefixOf text then some (.anonymous, Slot.marker.toList.length)
  else
    match text with
    | [] => none
    | c :: rest =>
      if c = style.opening then
        match name? rest with
        | some (name, d :: _) => if d = style.closing then some (.named name, name.length + 2) else none
        | _ => none
      else none

/-- The text read so far as a piece, unless it is empty; it is given last character first. -/
def closeText (read : List Char) : List Piece :=
  if read.isEmpty then [] else [.text read.reverse]

/-- The pieces of a text of which `read` came before, last character first, and `skip` more
characters belong to a slot already found. -/
def piecesFrom (style : SlotStyle) : List Char → Nat → List Char → List Piece
  | read, _, [] => closeText read
  | read, skip + 1, _ :: rest => piecesFrom style read skip rest
  | read, 0, c :: rest =>
    match slotAt? style (c :: rest) with
    | some (piece, length) => closeText read ++ piece :: piecesFrom style [] (length - 1) rest
    | none => piecesFrom style (c :: read) 0 rest

/-- A text cut at the slots written in it. -/
def pieces (style : SlotStyle) (text : List Char) : List Piece := piecesFrom style [] 0 text

/-- The tokens of pieces, with the supply before and after. -/
def tokensOfPieces (tokenizer : Tokenizer) : List Piece → Nat → List Token × Nat
  | [], supply => ([], supply)
  | .text content :: rest, supply =>
    let (tokens, supply) := tokensOfPieces tokenizer rest supply
    ((tokenizer (String.ofList content)).map .literal ++ tokens, supply)
  | .named name :: rest, supply =>
    let (tokens, supply) := tokensOfPieces tokenizer rest supply
    (.slot (.named (String.ofList name)) :: tokens, supply)
  | .anonymous :: rest, supply =>
    let (tokens, after) := tokensOfPieces tokenizer rest (supply + 1)
    (.slot (.anonymous supply) :: tokens, after)

/-- The tokens of a text, with the supply before and after. -/
def tokens (tokenizer : Tokenizer) (style : SlotStyle) (text : String) (supply : Nat) :
    List Token × Nat :=
  tokensOfPieces tokenizer (pieces style text.toList) supply

end Text

end GrammarInduction
