import GrammarInduction.Json

/-!
# Texts in a JSON text

A text stands between quotes. Quote, backslash and the control characters are written by escapes;
any other character may be, and one beyond the first 2^16 then takes two escapes, a pair of halves.

* `JsonText.encode` writes a text with as few escapes as possible.
* `JsonText.scan?` reads one up to its closing quote. Where an escape is half of a pair without
  the other half, the text is well-formed and denotes nothing.
-/

namespace GrammarInduction

namespace JsonText

/-! ## Writing -/

/-- A digit of base 16. -/
def hexDigit (n : Nat) : Char := if n < 10 then Char.ofNat ('0'.toNat + n) else Char.ofNat ('a'.toNat + (n - 10))

/-- What is written for a character. -/
def encodeChar (c : Char) : List Char :=
  if c = '"' then ['\\', '"']
  else if c = '\\' then ['\\', '\\']
  else if c = '\x08' then ['\\', 'b']
  else if c = '\t' then ['\\', 't']
  else if c = '\n' then ['\\', 'n']
  else if c = '\x0c' then ['\\', 'f']
  else if c = '\r' then ['\\', 'r']
  else if c.toNat < 0x20 then
    ['\\', 'u', '0', '0', hexDigit (c.toNat / 16), hexDigit (c.toNat % 16)]
  else [c]

/-- A text between quotes. -/
def encode (text : List Char) : List Char := '"' :: text.flatMap encodeChar ++ ['"']

/-! ## Reading -/

/-- A character, or half of a pair. -/
inductive CodeUnit where
  | char (c : Char)
  | half (n : Nat)
  deriving DecidableEq, Repr

/-- Whether a code point is the first half of a pair. -/
def isHighHalf (n : Nat) : Bool := 0xD800 ≤ n && n ≤ 0xDBFF

/-- Whether a code point is the second half of a pair. -/
def isLowHalf (n : Nat) : Bool := 0xDC00 ≤ n && n ≤ 0xDFFF

/-- What a code point stands for by itself. -/
def CodeUnit.ofCodePoint (n : Nat) : CodeUnit :=
  if isHighHalf n || isLowHalf n then .half n else .char (Char.ofNat n)

/-- The character of a pair. -/
def pairChar (high low : Nat) : Char := Char.ofNat (0x10000 + (high - 0xD800) * 0x400 + (low - 0xDC00))

/-- The characters of code units, unless a half stands alone. -/
def join? : List CodeUnit → Option (List Char)
  | [] => some []
  | .char c :: rest => (join? rest).map (c :: ·)
  | .half high :: .half low :: rest =>
    if isHighHalf high && isLowHalf low then (join? rest).map (pairChar high low :: ·) else none
  | .half _ :: _ => none

/-- The value of a digit of base 16. -/
def hexValue? (c : Char) : Option Nat :=
  if c.isDigit then some (c.toNat - '0'.toNat)
  else if 'a' ≤ c ∧ c ≤ 'f' then some (c.toNat - 'a'.toNat + 10)
  else if 'A' ≤ c ∧ c ≤ 'F' then some (c.toNat - 'A'.toNat + 10)
  else none

/-- The value of four digits of base 16. -/
def hexValues? (a b c d : Char) : Option Nat := do
  return (((← hexValue? a) * 16 + (← hexValue? b)) * 16 + (← hexValue? c)) * 16 + (← hexValue? d)

/-- The character that a backslash and a letter stand for. -/
def escaped? : Char → Option Char
  | '"' => some '"'
  | '\\' => some '\\'
  | '/' => some '/'
  | 'b' => some '\x08'
  | 'f' => some '\x0c'
  | 'n' => some '\n'
  | 'r' => some '\r'
  | 't' => some '\t'
  | _ => none

/-- The code units up to the closing quote, and what follows it. `read` holds those that came
before, last one first. -/
def scanUnits? (read : List CodeUnit) : List Char → Option (List CodeUnit × List Char)
  | [] => none
  | '"' :: rest => some (read.reverse, rest)
  | '\\' :: 'u' :: a :: b :: c :: d :: rest =>
    match hexValues? a b c d with
    | some n => scanUnits? (.ofCodePoint n :: read) rest
    | none => none
  | '\\' :: c :: rest =>
    match escaped? c with
    | some c => scanUnits? (.char c :: read) rest
    | none => none
  | c :: rest => if c = '\\' ∨ c.toNat < 0x20 then none else scanUnits? (.char c :: read) rest

/-- The text up to the closing quote, if it denotes one, and what follows it. -/
def scan? (text : List Char) : Option (Option String × List Char) :=
  (scanUnits? [] text).map fun (units, rest) => ((join? units).map String.ofList, rest)

end JsonText

end GrammarInduction
