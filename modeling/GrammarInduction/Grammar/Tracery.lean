import GrammarInduction.Grammar.Document

/-!
# Tracery documents

Tracery writes slots between hash signs. A slot may carry modifiers, `#name.modifier#`, which are
dropped (`Tracery.dropModifiers`), and a text may save a variable, `[name:value]` or
`[name:#value#]`, which a grammar cannot express (`Tracery.savedVariable?`). Both are looked for in
the text of the whole document before it is read.
-/

namespace GrammarInduction

namespace Tracery

/-! ## Modifiers -/

/-- Whether a text is made of names with single dots between them; `afterDot` tells whether a name
has to begin. -/
def isDotted : Bool → List Char → Bool
  | afterDot, [] => !afterDot
  | afterDot, c :: rest =>
    if c = '.' then !afterDot && isDotted true rest else Text.isNameChar c && isDotted false rest

/-- The characters of a name with modifiers. -/
def isDottedChar (c : Char) : Bool := Text.isNameChar c || c == '.'

/-- The name of the slot with modifiers that is written at the front of a text, and the number of
characters that it takes. -/
def modifiedSlot? : List Char → Option (List Char × Nat)
  | [] => none
  | c :: rest =>
    let path := rest.takeWhile isDottedChar
    if c = '#' ∧ path.contains '.' ∧ isDotted true path ∧
        (rest.dropWhile isDottedChar).head? = some '#' then
      some (path.takeWhile Text.isNameChar, path.length + 2)
    else none

/-- A text without the modifiers of slots, after `skip` characters that belong to a slot already
found. -/
def dropModifiersFrom : Nat → List Char → List Char
  | _, [] => []
  | skip + 1, _ :: rest => dropModifiersFrom skip rest
  | 0, c :: rest =>
    match modifiedSlot? (c :: rest) with
    | some (name, length) => '#' :: name ++ '#' :: dropModifiersFrom (length - 1) rest
    | none => c :: dropModifiersFrom 0 rest

/-- A text without the modifiers of slots. -/
def dropModifiers (text : String) : String := String.ofList (dropModifiersFrom 0 text.toList)

/-! ## Saved variables -/

/-- The length of the value of a saved variable, up to the closing bracket: a name, perhaps between
hash signs. -/
def valueLength? (text : List Char) : Option Nat :=
  match text with
  | '#' :: rest =>
    match Text.name? rest with
    | some (value, '#' :: ']' :: _) => some (value.length + 2)
    | _ => none
  | _ =>
    match Text.name? text with
    | some (value, ']' :: _) => some value.length
    | _ => none

/-- The length of the saved variable at the front of a text. -/
def savedLength? : List Char → Option Nat
  | '[' :: rest =>
    match Text.name? rest with
    | some (name, ':' :: value) => (valueLength? value).map fun length => name.length + length + 3
    | _ => none
  | _ => none

/-- The first saved variable in a text. -/
def findSaved? : List Char → Option (List Char)
  | [] => none
  | c :: rest =>
    match savedLength? (c :: rest) with
    | some length => some ((c :: rest).take length)
    | none => findSaved? rest

/-- The first saved variable in a text. -/
def savedVariable? (text : String) : Option String := (findSaved? text.toList).map String.ofList

end Tracery

namespace Grammar

/-- The grammar of a Tracery text, and the supply after. -/
def ofTracery? (text : String) (supply : Nat) : Except Failure (Grammar × Nat) :=
  let plain := Tracery.dropModifiers text
  match Tracery.savedVariable? plain with
  | some action => .error (.savedVariable action)
  | none => (Document.read? plain).map fun document => ofTexts .hash document.entries supply

/-- The Tracery text of a grammar. -/
def toTracery (g : Grammar) (join : Detokenizer) : String :=
  (g.toDocument (Template.toHashText join)).toText

end Grammar

end GrammarInduction
