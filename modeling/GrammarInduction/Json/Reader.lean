import GrammarInduction.Json.Number
import GrammarInduction.Json.Text

/-!
# Reading JSON

A text is cut into lexemes (`Lexeme.scan?`), and the lexemes drive a stack of open arrays and
objects (`Reading.step`). Each lexeme is one step, so reading is a fold over the lexemes.

* `Json.parse?` accepts every well-formed text.
* `Json.read?` asks besides that everything in it denotes something.
-/

namespace GrammarInduction

/-- A mark or a scalar. -/
inductive Lexeme where
  | openArray
  | closeArray
  | openObject
  | closeObject
  | comma
  | colon
  | scalar (value : Json)
  deriving Repr

namespace Lexeme

/-- The blanks of JSON. -/
def isBlank (c : Char) : Bool := c == ' ' || c == '\n' || c == '\t' || c == '\r'

/-- A word at the front of a text, and what follows it. -/
def word? (word : String) (value : Json) (text : List Char) : Option (Lexeme × List Char) :=
  if word.toList.isPrefixOf text then some (.scalar value, text.drop word.length) else none

/-- The lexeme at the front of a text, and what follows it. -/
def scan? : List Char → Option (Lexeme × List Char)
  | [] => none
  | '[' :: rest => some (.openArray, rest)
  | ']' :: rest => some (.closeArray, rest)
  | '\x7b' :: rest => some (.openObject, rest)
  | '\x7d' :: rest => some (.closeObject, rest)
  | ',' :: rest => some (.comma, rest)
  | ':' :: rest => some (.colon, rest)
  | '"' :: rest => (JsonText.scan? rest).map fun (content, rest) => (.scalar (.text content), rest)
  | 'n' :: rest => word? "null" .null ('n' :: rest)
  | 't' :: rest => word? "true" (.bool true) ('t' :: rest)
  | 'f' :: rest => word? "false" (.bool false) ('f' :: rest)
  | text => (Numeral.scan? text).map fun (numeral, rest) => (.scalar (.number numeral.value?), rest)

/-- The first lexeme of a text. -/
def first? (text : List Char) : Option Lexeme :=
  (scan? (text.dropWhile isBlank)).map Prod.fst

/-- The lexemes of a text, `read` being those before it, last one first. Every lexeme takes at least
one character, so that `fuel` need not exceed the length. -/
def scanAll? (read : List Lexeme) : Nat → List Char → Option (List Lexeme)
  | fuel, text =>
    match text.dropWhile isBlank with
    | [] => some read.reverse
    | c :: rest =>
      match fuel with
      | 0 => none
      | fuel + 1 =>
        match scan? (c :: rest) with
        | some (lexeme, rest) => scanAll? (lexeme :: read) fuel rest
        | none => none

end Lexeme

/-- An array or object that is not closed yet, last part first. -/
inductive Frame where
  | array (items : List Json)
  | object (members : List (Option String × Json))
  /-- An object whose next member has its key. -/
  | member (members : List (Option String × Json)) (key : Option String)
  deriving Repr

/-- What may come next. -/
inductive Expected where
  | value
  /-- A value, or the end of an array without items. -/
  | itemOrClose
  /-- A key, or the end of an object without members. -/
  | keyOrClose
  | key
  | colon
  /-- A comma, or the end of the innermost array or object. -/
  | commaOrClose
  deriving DecidableEq, Repr

/-- How far reading has come. -/
inductive Reading where
  | within (frames : List Frame) (expected : Expected)
  | complete (value : Json)
  deriving Repr

namespace Reading

/-- Nothing read yet. -/
def start : Reading := within [] .value

/-- Puts a complete value in its place. -/
def place (value : Json) : List Frame → Option Reading
  | [] => some (complete value)
  | .array items :: frames => some (within (.array (value :: items) :: frames) .commaOrClose)
  | .member members key :: frames =>
    some (within (.object ((key, value) :: members) :: frames) .commaOrClose)
  | .object _ :: _ => none

/-- Closes the innermost array. -/
def closeArray : List Frame → Option Reading
  | .array items :: frames => place (.array items.reverse) frames
  | _ => none

/-- Closes the innermost object. -/
def closeObject : List Frame → Option Reading
  | .object members :: frames => place (.object members.reverse) frames
  | _ => none

/-- Begins a value. -/
def beginValue (frames : List Frame) : Lexeme → Option Reading
  | .openArray => some (within (.array [] :: frames) .itemOrClose)
  | .openObject => some (within (.object [] :: frames) .keyOrClose)
  | .scalar value => place value frames
  | _ => none

/-- Takes the key of a member. -/
def takeKey (key : Option String) : List Frame → Option Reading
  | .object members :: frames => some (within (.member members key :: frames) .colon)
  | _ => none

/-- Goes on to the next item or member. -/
def takeComma : List Frame → Option Reading
  | .array items :: frames => some (within (.array items :: frames) .value)
  | .object members :: frames => some (within (.object members :: frames) .key)
  | _ => none

/-- Takes in one lexeme, if it may come. -/
def step : Reading → Lexeme → Option Reading
  | complete _, _ => none
  | within frames .value, lexeme => beginValue frames lexeme
  | within frames .itemOrClose, .closeArray => closeArray frames
  | within frames .itemOrClose, lexeme => beginValue frames lexeme
  | within frames .keyOrClose, .closeObject => closeObject frames
  | within frames .keyOrClose, .scalar (.text key) => takeKey key frames
  | within frames .key, .scalar (.text key) => takeKey key frames
  | within frames .colon, .colon => some (within frames .value)
  | within frames .commaOrClose, .comma => takeComma frames
  | within frames .commaOrClose, .closeArray => closeArray frames
  | within frames .commaOrClose, .closeObject => closeObject frames
  | _, _ => none

end Reading

namespace Json

/-- The value of lexemes. -/
def ofLexemes? (lexemes : List Lexeme) : Option Json :=
  match lexemes.foldlM Reading.step Reading.start with
  | some (.complete value) => some value
  | _ => none

/-- The value of a well-formed text. -/
def parse? (text : String) : Option Json :=
  (Lexeme.scanAll? [] text.length text.toList).bind ofLexemes?

/-- The value of a well-formed text in which everything denotes something. -/
def read? (text : String) : Option Json :=
  (parse? text).filter isSound

end Json

end GrammarInduction
