import GrammarInduction.Template.Filling

/-!
# Assignments

An assignment gives a value to each of some slots, at most one to a slot. `Assignment.ofPairs?`
refuses a second value for a slot. `Template.fill` replaces every occurrence of an assigned slot by
its value and leaves the others; the values are not filled again.
-/

namespace GrammarInduction

/-- Values of slots, in the order in which they were assigned. -/
abbrev Assignment := OrderedMap Slot Template

namespace Assignment

/-- Gives a slot its value, unless it has one. -/
def assign (a : Assignment) (slot : Slot) (value : Template) : Except Failure Assignment :=
  if a.contains slot then .error (.repeatedSlot slot) else .ok (a.insert slot value)

/-- The assignment of a list of pairs with distinct slots. -/
def ofPairs? (pairs : List (Slot × Template)) : Except Failure Assignment :=
  pairs.foldlM (fun a (slot, value) => assign a slot value) OrderedMap.empty

/-- Whether some value has no tokens. -/
def hasEmptyValue (a : Assignment) : Bool := a.values.any Template.isEmpty

end Assignment

namespace Template

/-- The tokens in place of one token. -/
def fillToken (a : Assignment) : Token → List Token
  | .literal text => [.literal text]
  | .slot s =>
    match a.get? s with
    | some value => value.tokens
    | none => [.slot s]

/-- Replaces all occurrences of assigned slots at once. -/
def fill (a : Assignment) (t : Template) : Template := ⟨t.tokens.flatMap (fillToken a)⟩

/-- The assignment that pairs the slots of a template, none of them repeated, with values. -/
def assign? (t : Template) (values : List Template) : Except Failure Assignment :=
  if t.slots.length = values.length then Assignment.ofPairs? (t.slots.zip values)
  else .error (.arityMismatch t.slots.length values.length)

end Template

end GrammarInduction
