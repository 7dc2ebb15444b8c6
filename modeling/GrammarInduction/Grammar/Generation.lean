import GrammarInduction.Grammar.Expansion
import GrammarInduction.SlotValues

/-!
# Generating templates

All templates that a slot gives within a number of levels. A slot that is left when no level is, or
that has no rule, stays.

* `generateAll?` fills every occurrence of a slot independently and lists each template once.
* `generateShared?` fills all occurrences of a slot in a production alike; a template is listed as
  often as it comes up.

Of several slots in a production the first varies slowest.
-/

namespace GrammarInduction

/-- How many levels are generated unless something else is said. -/
def defaultDepth : Nat := 100

namespace Grammar

/-! ## Occurrences filled independently -/

/-- The templates that a production gives, a value chosen for each occurrence of a slot. -/
def fillEach (values : Slot → OrderedSet Template) (production : Template) : List Template :=
  (SlotValues.choices (production.slots.map fun s => (values s).toList)).map fun tuple =>
    ⟨Template.fillTokens production.tokens tuple⟩

/-- The templates that productions give, a value chosen for each occurrence of a slot. -/
def fillAllEach (values : Slot → OrderedSet Template) (productions : List Template) :
    OrderedSet Template :=
  .ofList (productions.flatMap (fillEach values))

theorem isLocal_fillAllEach : IsLocal fillAllEach := by
  intro v w ps h
  have each (p : Template) (hp : p ∈ ps) : fillEach v p = fillEach w p := by
    have : p.slots.map (fun s => (v s).toList) = p.slots.map fun s => (w s).toList :=
      List.map_congr_left fun s hs => by rw [h p hp s hs]
    rw [fillEach, fillEach, this]
  rw [fillAllEach, fillAllEach, List.flatMap_def, List.flatMap_def, List.map_congr_left each]

/-- The templates that a slot gives within a number of levels. -/
def generateAll (g : Grammar) (depth : Nat) (slot : Slot) : OrderedSet Template :=
  g.expansion (fun s => OrderedSet.empty.insert (.ofSlot s)) fillAllEach depth slot

/-- The templates that a defined slot gives within a number of levels. -/
def generateAll? (g : Grammar) (slot : Slot) (depth : Nat) : Except Failure (OrderedSet Template) :=
  (g.productions? slot).map fun _ => g.generateAll depth slot

/-- The texts that the start gives. -/
def generateTexts? (g : Grammar) (join : Detokenizer) : Except Failure (List String) :=
  (g.generateAll? g.start defaultDepth).map fun templates =>
    templates.toList.map (Template.toText join)

/-! ## Occurrences filled alike -/

/-- The templates that a production gives, a value chosen for each slot. -/
def fillAlike (values : Slot → List Template) (production : Template) : List Template :=
  let slots := (OrderedSet.ofList production.slots).toList
  (SlotValues.choices (slots.map fun s => (OrderedSet.ofList (values s)).toList)).map fun tuple =>
    production.fill (.ofList (slots.zip tuple))

/-- The templates that productions give, a value chosen for each slot of a production. -/
def fillAllAlike (values : Slot → List Template) (productions : List Template) : List Template :=
  productions.flatMap (fillAlike values)

/-- The templates that a slot gives within a number of levels, a value for each slot of a
production. -/
def generateShared (g : Grammar) (depth : Nat) (slot : Slot) : List Template :=
  g.expand (fun s => [.ofSlot s]) fillAllAlike depth slot

/-- The templates that a defined slot gives within a number of levels, a value for each slot of a
production. -/
def generateShared? (g : Grammar) (slot : Slot) (depth : Nat) : Except Failure (List Template) :=
  (g.productions? slot).map fun _ => g.generateShared depth slot

end Grammar

end GrammarInduction
