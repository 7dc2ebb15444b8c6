import GrammarInduction.Arena.Collapse
import GrammarInduction.Grammar
import GrammarInduction.SlotValues.Merge

/-!
# Grammars read off slot values and trees

`Grammar.ofValues root v` has a rule for every slot that is not replaced, with its values for
productions, and begins at `origin` with the template `root`. If that is a single slot, it is called
`origin` everywhere and its rule is the one of the start.

`Grammar.ofTree` reads off the grammar of a tree: the tree is collapsed, its slots are merged, and
nodes that the values make redundant are taken out.
-/

namespace GrammarInduction

namespace Grammar

/-- The rules for the slots that are not replaced; a slot is no production of itself. -/
def valueRules (v : SlotValues) : OrderedMap Slot (List Template) :=
  v.nonReplaced.values.mapValues fun slot templates =>
    templates.toList.filter fun t => !(t.single? == some slot)

/-- Rules that begin with those of the start. A rule for `origin` among the others takes the place
of the productions given for it. -/
def withOrigin (productions : List Template) (rules : OrderedMap Slot (List Template)) : Grammar :=
  ⟨origin, (OrderedMap.empty.insert origin productions).insertAll rules.entries⟩

/-- The grammar of a root template and slot values. -/
def ofValues (root : Template) (v : SlotValues) : Grammar :=
  let rules := valueRules v
  match root.single? with
  | none => withOrigin [root] rules
  | some slot =>
    let names := OrderedMap.empty.insert slot origin
    let renamed (productions : List Template) : List Template := productions.map (.rename names)
    let others := (rules.erase slot).mapValues fun _ productions => renamed productions
    match rules.get? slot with
    | some productions => withOrigin (renamed productions) others
    | none => withOrigin [root] others

/-- The grammar of a tree whose slots are merged at a threshold, and the arena with the nodes stored
on the way. -/
def ofTree (threshold : Float) (a : Arena) (root : Nat) : Arena × Except Failure Grammar :=
  let (a, collapsed) := a.collapse root
  match a.slotValues? collapsed >>= SlotValues.merge threshold with
  | .error e => (a, .error e)
  | .ok v =>
    let (a, simplified) := a.splice v.values collapsed
    (a, .ok (ofValues (a.template simplified) v))

end Grammar

end GrammarInduction
