import GrammarInduction.Failure
import GrammarInduction.Ordered.Map

/-!
# Context-free grammars

A `Grammar` has a start slot and rules, the productions of each slot that is defined. A production
is a template; its slots refer to other rules. A slot that is referred to and not defined stands for
itself.

Two grammars are equal, `g == h`, if they have the same start and define the same slots with the
same productions, in any order but as often: `sameProductions_iff` says so of the productions of one
slot. Productions are compared by form.
-/

namespace GrammarInduction

/-- A context-free grammar. -/
structure Grammar where
  /-- The slot at which derivations begin. -/
  start : Slot
  /-- The productions of each defined slot. -/
  rules : OrderedMap Slot (List Template)

/-- The slot at which derivations begin unless something else is said. -/
def origin : Slot := .named "origin"

namespace Grammar

/-- The grammar without rules. -/
def empty : Grammar := ⟨origin, .empty⟩

instance : Inhabited Grammar := ⟨empty⟩

/-- The productions of a slot, none if it is not defined. -/
def productions (g : Grammar) (slot : Slot) : List Template := (g.rules.get? slot).getD []

/-- The productions of a defined slot. -/
def productions? (g : Grammar) (slot : Slot) : Except Failure (List Template) :=
  match g.rules.get? slot with
  | some productions => .ok productions
  | none => .error (.undefinedSlot slot)

def isDefined (g : Grammar) (slot : Slot) : Bool := g.rules.contains slot

/-- The defined slots in the order of their definition. -/
def slots (g : Grammar) : List Slot := g.rules.keys

/-- The number of productions of all slots together. -/
def size (g : Grammar) : Nat := g.rules.values.flatten.length

/-- The slots in the productions of a slot, as often as they occur. -/
def references (g : Grammar) (slot : Slot) : List Slot := (g.productions slot).flatMap Template.slots

theorem productions_of_get? {g : Grammar} {slot : Slot} {ps : List Template}
    (hrule : g.rules.get? slot = some ps) : g.productions slot = ps := by
  rw [productions, hrule, Option.getD_some]

theorem get?_eq_none_iff {g : Grammar} {slot : Slot} :
    g.rules.get? slot = none ↔ g.isDefined slot = false := by
  rw [isDefined, OrderedMap.contains_eq_isSome, Option.isSome_eq_false_iff,
    Option.isNone_iff_eq_none]

theorem get?_eq_some_productions {g : Grammar} {slot : Slot} (hdefined : g.isDefined slot = true) :
    g.rules.get? slot = some (g.productions slot) := by
  rw [isDefined, OrderedMap.contains_eq_isSome] at hdefined
  obtain ⟨ps, hrule⟩ := Option.isSome_iff_exists.1 hdefined
  rw [productions_of_get? hrule, hrule]

theorem productions?_eq_ok {g : Grammar} {slot : Slot} (hdefined : g.isDefined slot = true) :
    g.productions? slot = .ok (g.productions slot) := by
  rw [productions?, get?_eq_some_productions hdefined]

theorem exists_rule_of_mem_productions {g : Grammar} {slot : Slot} {p : Template}
    (hp : p ∈ g.productions slot) : ∃ ps, (slot, ps) ∈ g.rules.entries ∧ p ∈ ps := by
  rw [productions] at hp
  cases hrule : g.rules.get? slot with
  | none => simp [hrule] at hp
  | some ps =>
    rw [hrule, Option.getD_some] at hp
    exact ⟨ps, OrderedMap.get?_eq_some_iff.1 hrule, hp⟩

theorem mem_references_of_mem_productions {g : Grammar} {slot s : Slot} {p : Template}
    (hp : p ∈ g.productions slot) (hs : s ∈ p.slots) : s ∈ g.references slot :=
  List.mem_flatMap.2 ⟨p, hp, hs⟩

theorem mem_references (g : Grammar) {slot s : Slot} {ps : List Template} {p : Template}
    (hrule : g.rules.get? slot = some ps) (hp : p ∈ ps) (hs : s ∈ p.slots) :
    s ∈ g.references slot :=
  mem_references_of_mem_productions (productions_of_get? hrule ▸ hp) hs

/-! ## Grammars from texts -/

/-- Adds productions, given as texts, to the rules of slots, given by name. -/
def addTexts (style : SlotStyle) :
    List (String × List String) → OrderedMap Slot (List Template) → Nat →
      OrderedMap Slot (List Template) × Nat
  | [], rules, supply => (rules, supply)
  | (name, texts) :: rest, rules, supply =>
    let (templates, supply) := Template.parseAll Text.words style texts supply
    addTexts style rest
      (rules.update (.named name) fun known => known.getD [] ++ templates) supply

/-- The grammar of productions given as texts, and the supply after; a repeated name adds
productions to its slot. -/
def ofTexts (style : SlotStyle) (rules : List (String × List String)) (supply : Nat) :
    Grammar × Nat :=
  let (rules, supply) := addTexts style rules .empty supply
  (⟨origin, rules⟩, supply)

/-! ## Equality -/

/-- Whether two lists hold equal productions equally often. -/
def sameProductions (ps qs : List Template) : Bool := (ps.map Template.form).isPerm (qs.map Template.form)

theorem sameProductions_iff {ps qs : List Template} :
    sameProductions ps qs = true ↔ (ps.map Template.form).Perm (qs.map Template.form) :=
  List.isPerm_iff

instance : BEq Grammar where
  beq g h :=
    g.start == h.start && g.rules.size == h.rules.size && g.rules.entries.all fun (slot, ps) =>
      (h.rules.get? slot).any (sameProductions ps)

end Grammar

end GrammarInduction
