import GrammarInduction.Grammar
import GrammarInduction.Walk.Search
import GrammarInduction.Walk.Worklist

/-!
# Analyses of grammars

* `reachable` lists the slots that the start leads to, found with a stack; `unreachableSlots` are the
  defined slots that are not among them.
* `sortedSlots` lists the defined slots in the order in which a walk with a queue comes to them, and
  then those that it does not come to.
* `dependencyOrder?` lists the defined slots that the start leads to, each after all defined slots
  in its productions. There is such an order unless one of the slots leads back to itself; then the
  grammar is *recursive*.
* `depth?` is the length of the longest chain of references from the start, and `generations?` the
  number of derivations, as far as a word can hold it. A recursive grammar has neither.
-/

namespace GrammarInduction

namespace Grammar

/-! ## References -/

/-- The slots that the start leads to, itself included. Slots that are not defined refer to none. -/
def reachable (g : Grammar) : List Slot :=
  Walk.byStack g.references (Walk.turns g.references g.slots) [] [g.start]

/-- The defined slots that the start does not lead to. -/
def unreachableSlots (g : Grammar) : List Slot :=
  let reached := g.reachable
  g.slots.filter fun s => !reached.contains s

/-- The defined slots that the start leads to, the nearest first. -/
def nearestSlots (g : Grammar) : List Slot :=
  (Walk.byQueue g.references (Walk.turns g.references g.slots) [g.start] [g.start]).filter g.isDefined

/-- All defined slots: those that the start leads to, then the others. -/
def sortedSlots (g : Grammar) : List Slot :=
  let nearest := g.nearestSlots
  nearest ++ g.slots.filter fun s => !nearest.contains s

/-- The slots that some production refers to and no rule defines. -/
def undefinedSlots (g : Grammar) : List Slot :=
  let referred := g.rules.values.flatMap fun ps => ps.flatMap Template.slots
  (OrderedSet.ofList (referred.filter fun s => !g.isDefined s)).toList

/-! ## Dependencies -/

/-- The defined slots in the productions of a slot. -/
def dependencies (g : Grammar) (slot : Slot) : List Slot := (g.references slot).filter g.isDefined

/-- The defined slots that the start leads to, each after its dependencies. -/
def dependencyOrder? (g : Grammar) : Option (List Slot) :=
  if g.isDefined g.start then Walk.ordering? g.dependencies g.slots g.start else some []

/-- Whether the start leads to a slot that leads back to itself. -/
def isRecursive (g : Grammar) : Bool := g.dependencyOrder?.isNone

/-- A value for each slot of a list, given the values of those before it; `known` holds the values
so far. -/
def tabulate (value : List (Slot × Nat) → Slot → Nat) (slots : List Slot) : List (Slot × Nat) :=
  slots.foldl (fun known slot => (slot, value known slot) :: known) []

/-- The length of the longest chain of references from a slot, given those of its dependencies. -/
def depthFrom (g : Grammar) (known : List (Slot × Nat)) (slot : Slot) : Nat :=
  ((g.dependencies slot).filterMap fun s => known.lookup s).foldl max 0 + 1

/-- The number of slots on the longest chain of references from the start. -/
def depth? (g : Grammar) : Option Nat :=
  g.dependencyOrder?.map fun order => ((tabulate g.depthFrom order).lookup g.start).getD 0

/-! ## Numbers of derivations -/

/-- The greatest count. -/
def maxCount : Nat := UInt64.size - 1

/-- The sum of two counts, no greater than the greatest one. -/
def addCounts (m n : Nat) : Nat := min (m + n) maxCount

/-- The product of two counts, no greater than the greatest one. -/
def mulCounts (m n : Nat) : Nat := min (m * n) maxCount

/-- The number of derivations from a production, given those from slots; a slot without one stands
for itself. -/
def derivationsFrom (known : List (Slot × Nat)) (production : Template) : Nat :=
  (production.slots.map fun s => (known.lookup s).getD 1).foldl mulCounts 1

/-- The number of derivations from a slot, given those from its dependencies. -/
def countFrom (g : Grammar) (known : List (Slot × Nat)) (slot : Slot) : Nat :=
  ((g.productions slot).map (derivationsFrom known)).foldl addCounts 0

/-- The number of derivations from the start. -/
def generations? (g : Grammar) : Option Nat :=
  g.dependencyOrder?.map fun order => ((tabulate g.countFrom order).lookup g.start).getD 1

end Grammar

end GrammarInduction
