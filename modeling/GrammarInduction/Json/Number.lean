import GrammarInduction.Json

/-!
# Numbers in a JSON text

`Numeral.scan?` finds the numeral at the front of a text: a sign, digits without a leading zero,
perhaps a fraction, perhaps an exponent. `Numeral.value?` is what it denotes.

A numeral without fraction and exponent that fits a word is exact. Any other is a double: as many
digits as fit 64 bits make a natural number, and this is multiplied or divided, once as a rule, by a
power of ten. That is fast and not always the nearest double. A number beyond the doubles denotes
nothing.
-/

namespace GrammarInduction

/-- A numeral taken apart. -/
structure Numeral where
  /-- Whether a minus sign stands in front. -/
  negative : Bool
  /-- The digits before the point. -/
  whole : List Char
  /-- The digits after the point, if there is a point. -/
  fraction : Option (List Char)
  /-- Whether the exponent is negative and its digits, if there is one. -/
  exponent : Option (Bool × List Char)
  deriving DecidableEq, Repr

namespace Numeral

/-- The digits at the front of a text, if there are any, and the rest. -/
def digits? (text : List Char) : Option (List Char × List Char) :=
  let digits := text.takeWhile Char.isDigit
  if digits.isEmpty then none else some (digits, text.dropWhile Char.isDigit)

/-- The digits before the point: a zero has no digit after it. -/
def whole? (text : List Char) : Option (List Char × List Char) :=
  match digits? text with
  | some ('0' :: _ :: _, _) => none
  | found => found

/-- The digits after the point, if a point follows. -/
def fraction? : List Char → Option (Option (List Char) × List Char)
  | '.' :: rest => (digits? rest).map fun (digits, rest) => (some digits, rest)
  | text => some (none, text)

/-- A sign, and whether it is a minus; the plus may be missing. -/
def sign : List Char → Bool × List Char
  | '-' :: rest => (true, rest)
  | '+' :: rest => (false, rest)
  | text => (false, text)

/-- The exponent, if one follows. -/
def exponent? : List Char → Option (Option (Bool × List Char) × List Char)
  | c :: rest =>
    if c = 'e' ∨ c = 'E' then
      let (negative, rest) := sign rest
      (digits? rest).map fun (digits, rest) => (some (negative, digits), rest)
    else some (none, c :: rest)
  | [] => some (none, [])

/-- The numeral at the front of a text, and the rest. -/
def scan? (text : List Char) : Option (Numeral × List Char) :=
  let (negative, text) :=
    match text with
    | '-' :: rest => (true, rest)
    | text => (false, text)
  match whole? text with
  | none => none
  | some (whole, text) =>
    match fraction? text with
    | none => none
    | some (fraction, text) =>
      (exponent? text).map fun (exponent, rest) => (⟨negative, whole, fraction, exponent⟩, rest)

/-! ## What a numeral denotes -/

/-- The value of a digit. -/
def digitValue (c : Char) : Nat := c.toNat - '0'.toNat

/-- The number that digits denote. -/
def natural (digits : List Char) : Nat := digits.foldl (fun n c => 10 * n + digitValue c) 0

/-- The numbers below this one fit a word. -/
def wordBound : Nat := UInt64.size

/-- The number of as many digits as fit a word, and how many are left over. -/
def keepDigits (digits : List Char) : Nat × Nat :=
  digits.foldl
    (fun (n, dropped) c =>
      if dropped = 0 ∧ 10 * n + digitValue c < wordBound then (10 * n + digitValue c, 0)
      else (n, dropped + 1))
    (0, 0)

/-- Goes on with the digits after the point: the number so far, the exponent of ten so far, and
whether digits still fit. -/
def keepFraction (n : Nat) (exponent : Int) (digits : List Char) : Nat × Int :=
  let (n, exponent, _) :=
    digits.foldl
      (fun (n, exponent, fits) c =>
        if fits && decide (10 * n + digitValue c < wordBound) then
          (10 * n + digitValue c, exponent - 1, true)
        else (n, exponent, false))
      (n, exponent, true)
  (n, exponent)

/-- The powers of ten among the doubles. -/
def powerOfTen (k : Nat) : Float := Float.ofScientific 1 false k

/-- The greatest power of ten among the doubles. -/
def maxPower : Nat := 308

/-- Divides by the greatest power of ten some times over, or until nothing is left. -/
def shrink : Nat → Float → Float
  | 0, x => x
  | times + 1, x => if x == 0.0 then x else shrink times (x / powerOfTen maxPower)

/-- A double times a power of ten, unless that is beyond the doubles. -/
def scale? (x : Float) : Int → Option Float
  | .ofNat k =>
    if k ≤ maxPower then
      let y := x * powerOfTen k
      if y.isInf then none else some y
    else if x == 0.0 then some x else none
  | .negSucc k =>
    let times := k / maxPower
    some (shrink times x / powerOfTen (k + 1 - times * maxPower))

/-- What a numeral denotes, if it is not beyond the doubles. -/
def value? (numeral : Numeral) : Option JsonNumber :=
  let signed (x : Float) : JsonNumber := .real (if numeral.negative then -x else x)
  let (n, dropped) := keepDigits numeral.whole
  if numeral.fraction = none ∧ numeral.exponent = none ∧ dropped = 0 then
    if !numeral.negative then some (.natural n)
    else if 0 < n ∧ 2 * n ≤ UInt64.size then some (.negative n)
    else some (signed (Float.ofNat n))
  else
    let (n, places) := keepFraction n dropped (numeral.fraction.getD [])
    let shift : Int :=
      match numeral.exponent with
      | none => 0
      | some (true, digits) => -(natural digits : Int)
      | some (false, digits) => natural digits
    (scale? (Float.ofNat n) (places + shift)).map signed

end Numeral

end GrammarInduction
