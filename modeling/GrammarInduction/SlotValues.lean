import GrammarInduction.Template.Assignment

/-!
# Slot values

`SlotValues` holds the set of templates that each slot may stand for, and which slots have been
replaced by which. A replaced slot keeps a single value, the template that is nothing but the slot
it was replaced by (`get?_replace`).

* `add` and `addAll` join values to the sets, `insert` sets one anew.
* `tuples?` lists all ways to choose one value for each of a list of slots, the first slot varying
  slowest; a slot listed twice is chosen for twice. `assignments?` does so for distinct slots.
-/

namespace GrammarInduction

/-- Value sets of slots, and replacements of slots by slots. -/
structure SlotValues where
  values : ValueSets
  replacements : OrderedMap Slot Slot

namespace SlotValues

/-- No slots. -/
def empty : SlotValues := ⟨.empty, .empty⟩

instance : Inhabited SlotValues := ⟨empty⟩

/-- Joins templates to the values of a slot, which comes in if it is new. -/
def add (v : SlotValues) (slot : Slot) (templates : List Template) : SlotValues :=
  { v with values := v.values.update slot fun known => (known.getD .empty).insertAll templates }

/-- Sets the values of a slot. -/
def insert (v : SlotValues) (slot : Slot) (templates : OrderedSet Template) : SlotValues :=
  { v with values := v.values.insert slot templates }

/-- Joins value sets to the values, slot by slot. -/
def addAll (v : SlotValues) (sets : ValueSets) : SlotValues :=
  sets.entries.foldl (fun v (slot, templates) => v.add slot templates.toList) v

/-- Slot values of pairs of a slot and one of its values. -/
def ofPairs (pairs : List (Slot × Template)) : SlotValues :=
  pairs.foldl (fun v (slot, value) => v.add slot [value]) empty

/-- The values of a slot. -/
def get? (v : SlotValues) (slot : Slot) : Option (OrderedSet Template) := v.values.get? slot

/-- The values of a slot, none if it is unknown. -/
def getD (v : SlotValues) (slot : Slot) : OrderedSet Template := (v.get? slot).getD .empty

def contains (v : SlotValues) (slot : Slot) : Bool := v.values.contains slot

def slots (v : SlotValues) : List Slot := v.values.keys

def size (v : SlotValues) : Nat := v.values.size

def isEmpty (v : SlotValues) : Bool := v.values.isEmpty

/-- Equality of slot values: the same slots with the same sets, in any order. Replacements do not
count. -/
def sameValues (v w : SlotValues) : Bool :=
  v.size == w.size && v.values.entries.all fun (slot, templates) =>
    match w.get? slot with
    | some others => templates.sameMembers others
    | none => false

/-! ## Replacements -/

/-- The set whose one member is the template that is nothing but a slot. -/
def residual (slot : Slot) : OrderedSet Template := OrderedSet.empty.insert (.ofSlot slot)

/-- Records that one slot is replaced by another. -/
def replace (v : SlotValues) (slot target : Slot) : SlotValues :=
  ⟨v.values.insert slot (residual target), v.replacements.insert slot target⟩

/-- What a slot is replaced by. -/
def replacement? (v : SlotValues) (slot : Slot) : Option Slot := v.replacements.get? slot

def isReplaced (v : SlotValues) (slot : Slot) : Bool := v.replacements.contains slot

/-- The slots that are not replaced. -/
def unreplaced (v : SlotValues) : List Slot := v.slots.filter fun s => !v.isReplaced s

/-- The values of the slots that are not replaced. -/
def nonReplaced (v : SlotValues) : SlotValues :=
  ⟨v.values.filterKeys fun s => !v.isReplaced s, .empty⟩

theorem get?_replace (v : SlotValues) (slot target : Slot) :
    (v.replace slot target).get? slot = some (residual target) := by
  simp [get?, replace, OrderedMap.get?_insert]

theorem replacement?_replace (v : SlotValues) (slot target : Slot) :
    (v.replace slot target).replacement? slot = some target := by
  simp [replacement?, replace, OrderedMap.get?_insert]

/-! ## Choices of values -/

/-- All ways to choose one member of each list. -/
def choices {α : Type u} : List (List α) → List (List α)
  | [] => [[]]
  | first :: rest =>
    let tails := choices rest
    first.flatMap fun a => tails.map (a :: ·)

/-- The values of a slot as a list. -/
def valuesOf? (v : SlotValues) (slot : Slot) : Except Failure (List Template) :=
  match v.get? slot with
  | some templates => .ok templates.toList
  | none => .error (.undefinedSlot slot)

/-- All ways to choose a value for each of some slots. -/
def tuples? (v : SlotValues) (slots : List Slot) : Except Failure (List (List Template)) :=
  (slots.mapM v.valuesOf?).map choices

/-- All assignments of values to some distinct slots. -/
def assignments? (v : SlotValues) (slots : List Slot) : Except Failure (List Assignment) := do
  (← v.tuples? slots).mapM fun tuple => Assignment.ofPairs? (slots.zip tuple)

/-! ## Written form -/

/-- One line for each slot, its values in the order of their texts. -/
def render (v : SlotValues) : String :=
  String.join <| v.values.entries.map fun (slot, templates) =>
    let texts := (templates.toList.map Template.render).mergeSort fun a b => decide (a ≤ b)
    slot.render ++ " -> " ++ " | ".intercalate texts ++ "\n"

end SlotValues

end GrammarInduction
