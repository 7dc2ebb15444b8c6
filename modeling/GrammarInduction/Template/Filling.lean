import GrammarInduction.Ordered.Map
import GrammarInduction.Template.Search

/-!
# Fillings

A filling of a template gives one template to each occurrence of a slot, from left to right. They are
found by `Template.fillings`.

* `Template.fillWith` puts the values of a filling in place of the slots.
* `Template.bestFilling?` is the filling whose values vary least in length, of several the first.
* `Template.encompasses` asks for a filling in which each slot stays or takes one of its known
  values.

The spread of lengths is compared in doubles, in the order in which the lengths are summed up.
-/

namespace GrammarInduction

/-- The values that slots can take. -/
abbrev ValueSets := OrderedMap Slot (OrderedSet Template)

namespace Template

/-! ## Putting values in place of slots -/

/-- The tokens with the occurrences of slots replaced, one value after the other; slots that are
left without a value stay. -/
def fillTokens : List Token → List Template → List Token
  | [], _ => []
  | .literal text :: rest, values => .literal text :: fillTokens rest values
  | .slot _ :: rest, value :: values => value.tokens ++ fillTokens rest values
  | .slot s :: rest, [] => .slot s :: fillTokens rest []

/-- Replaces the occurrences of slots, each by a value of its own. -/
def fillWith (t : Template) (values : List Template) : Except Failure Template :=
  if t.slots.length = values.length then .ok ⟨fillTokens t.tokens values⟩
  else .error (.arityMismatch t.slots.length values.length)

/-- A token with the slot in it renamed. -/
def renameToken (names : OrderedMap Slot Slot) : Token → Token
  | .literal text => .literal text
  | .slot s => .slot ((names.get? s).getD s)

/-- Replaces every slot that has a new name. -/
def rename (names : OrderedMap Slot Slot) (t : Template) : Template :=
  ⟨t.tokens.map (renameToken names)⟩

@[simp] theorem shape_rename (names : OrderedMap Slot Slot) (t : Template) :
    (t.rename names).shape = t.shape := by
  have (k : Token) : (renameToken names k).literal? = k.literal? := by cases k <;> rfl
  simp [rename, shape, Function.comp_def, this]

/-! ## Fillings that give a template -/

/-- The sum of a list of doubles from left to right. -/
def floatSum (xs : List Float) : Float := xs.foldl (· + ·) 0.0

/-- The mean square of the distances from the mean length. -/
def spread (filling : List Template) : Float :=
  if filling.isEmpty then 0.0
  else
    let lengths := filling.map fun t => Float.ofNat t.length
    let count := Float.ofNat filling.length
    let mean := floatSum lengths / count
    floatSum (lengths.map fun x => (x - mean) * (x - mean)) / count

/-- Of two fillings with their spreads the second if its spread is strictly less. -/
def lesserSpread (best next : Float × List Template) : Float × List Template :=
  if best.1 <= next.1 then best else next

/-- The first filling of least spread. -/
def leastSpread? : List (List Template) → Option (List Template)
  | [] => none
  | first :: rest =>
    some ((rest.map fun f => (spread f, f)).foldl lesserSpread (spread first, first)).2

/-- The filling of `main` that gives `other` with values of the most even length. -/
def bestFilling? (main other : Template) : Except Failure (List Template) :=
  match leastSpread? (main.fillings other) with
  | some filling => .ok filling
  | none => .error (.notCovered main other)

/-- The values that the slots of `main` take to give `other`, gathered slot by slot. -/
def slotValues? (main other : Template) : Except Failure ValueSets :=
  (main.bestFilling? other).map fun filling =>
    (main.slots.zip filling).foldl
      (fun sets (slot, value) => sets.update slot fun known => (known.getD .empty).insert value)
      .empty

/-- Whether a value is allowed for a slot: the slot itself, or one of its known values. -/
def allows (sets : ValueSets) (slot : Slot) (value : Template) : Bool :=
  value.single? == some slot ||
    match sets.get? slot with
    | some known => known.contains value
    | none => false

/-- Whether some filling of `main` gives `other` with an allowed value for each slot. -/
def encompasses (main other : Template) (sets : ValueSets) : Bool :=
  (main.fillings other).any fun filling =>
    (main.slots.zip filling).all fun (slot, value) => allows sets slot value

end Template

end GrammarInduction
