/-!
# JSON values

The values that a JSON text denotes, as far as they are of use here. Reading keeps what the text
says: members of an object stay in order, a key that occurs twice occurs twice, and a scalar that is
well-formed but denotes nothing is kept as such. `Json.denotes` tells whether everything in a value
denotes something, down to a given depth of nesting.
-/

namespace GrammarInduction

/-- A number by the way it is written and its size. -/
inductive JsonNumber where
  /-- Digits alone, below 2^64. -/
  | natural (n : Nat)
  /-- A minus sign and digits, for `-n` with `n` positive and at most 2^63. -/
  | negative (n : Nat)
  /-- Anything else, as a double. -/
  | real (x : Float)
  deriving DecidableEq, Repr

/-- A JSON value. -/
inductive Json where
  | null
  | bool (b : Bool)
  /-- A number; `none` if it is beyond the doubles. -/
  | number (value : Option JsonNumber)
  /-- A text; `none` if an escape in it is half of a pair. -/
  | text (content : Option String)
  | array (items : List Json)
  /-- An object with its members in order; a key is a text. -/
  | object (members : List (Option String × Json))
  deriving Inhabited, Repr

namespace Json

mutual

/-- Whether every number and text in a value denotes something, and at most `depth` arrays and
objects contain each other. -/
def denotes (depth : Nat) : Json → Bool
  | null => true
  | bool _ => true
  | number value => value.isSome
  | text content => content.isSome
  | array items =>
    match depth with
    | 0 => false
    | depth + 1 => denotesItems depth items
  | object members =>
    match depth with
    | 0 => false
    | depth + 1 => denotesMembers depth members

/-- The same for all items of an array. -/
def denotesItems (depth : Nat) : List Json → Bool
  | [] => true
  | item :: rest => denotes depth item && denotesItems depth rest

/-- The same for all members of an object and their keys. -/
def denotesMembers (depth : Nat) : List (Option String × Json) → Bool
  | [] => true
  | (key, value) :: rest => key.isSome && denotes depth value && denotesMembers depth rest

end

/-- How deep arrays and objects may be nested. -/
def maxDepth : Nat := 127

/-- Whether a value denotes something as a whole. -/
def isSound (j : Json) : Bool := j.denotes maxDepth

/-- The text, of a text. -/
def text? : Json → Option String
  | text content => content
  | _ => none

end Json

end GrammarInduction
