import GrammarInduction.Grammar.Analysis
import GrammarInduction.Json.Reader

/-!
# Grammars as documents

A `Document` gives names to lists of texts. Its text is a JSON object, each name a key with a list
of texts, or a text alone that stands for a list of one.

* `Document.read?` reads a text. Of a repeated name the first place and the last value count. What is
  not an object is refused as soon as that can be told, and productions of the wrong form are refused
  in their order after the whole text is read.
* `Document.toText` writes one, four blanks to a level.
* `Grammar.ofJson?` and `Grammar.toJson` take a grammar from a text and back; the slots are written
  in the order of `Grammar.sortedSlots`, and their productions in the order of their texts.
-/

namespace GrammarInduction

/-- Names with the texts of their productions. -/
abbrev Document := OrderedMap String (List String)

namespace Document

/-! ## Reading -/

/-- The texts of productions in a document. -/
def texts? (name : String) : Json → Except Failure (List String)
  | .text (some content) => .ok [content]
  | .array items =>
    match items.mapM Json.text? with
    | some contents => .ok contents
    | none => .error (.badProductions name)
  | _ => .error (.badProductions name)

/-- The values of the members of an object by their names. -/
def namedValues (members : List (Option String × Json)) : OrderedMap String Json :=
  .ofList (members.filterMap fun (key, value) => key.map fun name => (name, value))

/-- The document of the members of an object. -/
def ofMembers? (members : List (Option String × Json)) : Except Failure Document :=
  (namedValues members).entries.foldlM
    (fun (document : Document) (name, value) => (texts? name value).map (document.insert name))
    OrderedMap.empty

/-- The document of a text. -/
def read? (text : String) : Except Failure Document :=
  match Lexeme.first? text.toList with
  | some .openObject =>
    match Json.read? text with
    | some (.object members) => ofMembers? members
    | _ => .error .malformed
  | some .openArray => .error .notAnObject
  | some (.scalar value) => .error (if value.isSound then .notAnObject else .malformed)
  | _ => .error .malformed

/-! ## Writing -/

/-- A text between quotes. -/
def quote (text : String) : String := String.ofList (JsonText.encode text.toList)

/-- Items between brackets, each on a line of its own. -/
def block (opening closing indent : String) (items : List String) : String :=
  if items.isEmpty then opening ++ closing
  else
    opening ++ "\n" ++ ",\n".intercalate (items.map (indent ++ "    " ++ ·)) ++ "\n" ++ indent ++
      closing

/-- The text of a document. -/
def toText (document : Document) : String :=
  block "\x7b" "\x7d" "" <| document.entries.map fun (name, texts) =>
    quote name ++ ": " ++ block "[" "]" "    " (texts.map quote)

end Document

namespace Grammar

/-- The productions of a slot as texts, in the order of the texts. -/
def sortedTexts (g : Grammar) (write : Template → String) (slot : Slot) : List String :=
  ((g.productions slot).map write).mergeSort fun a b => decide (a ≤ b)

/-- The document of a grammar, given how templates are written. -/
def toDocument (g : Grammar) (write : Template → String) : Document :=
  .ofList (g.sortedSlots.map fun slot => (slot.key, g.sortedTexts write slot))

/-- The grammar of a JSON text, and the supply after. -/
def ofJson? (text : String) (supply : Nat) : Except Failure (Grammar × Nat) :=
  (Document.read? text).map fun document => ofTexts .angle document.entries supply

/-- The JSON text of a grammar. -/
def toJson (g : Grammar) : String := (g.toDocument (Template.toText Text.joinWords)).toText

/-! ## Arrows -/

/-- A line for each slot, its productions behind an arrow. -/
def toArrows (g : Grammar) (join : Detokenizer) : String :=
  "\n".intercalate <| g.sortedSlots.map fun slot =>
    slot.key ++ " -> " ++ " | ".intercalate (g.sortedTexts (Template.toText join) slot)

/-- The lines of a grammar with marks of punctuation attached. -/
def render (g : Grammar) : String := g.toArrows Text.joinWords

end Grammar

end GrammarInduction
