import GrammarInduction.Grammar
import GrammarInduction.Ordered.Set
import GrammarInduction.SlotRenaming

/-!
# Isomorphic grammars

Two grammars are isomorphic if a one-to-one renaming of the slots that the start of the first leads
to makes one of the other. `isomorphisms` lists these renamings, each once.

The search begins with the two starts and keeps pairs of slots whose rules are still to be matched.
To match the rules of a pair is to pair their productions, each of the first with one of the second
that has the same shape; that pairs the slots in them by their places, and new pairs of slots are
matched before older ones. Every slot comes up once at most, so that the number of slots bounds the
search.
-/

namespace GrammarInduction

namespace Isomorphism

/-- A renaming so far, and the pairs whose rules are not matched yet, the next one first. -/
abbrev Partial := SlotRenaming × List (Slot × Slot)

/-- Each member of a list with the other members, in order. -/
def picks {α : Type u} : List α → List (α × List α)
  | [] => []
  | a :: rest => (a, rest) :: (picks rest).map fun (b, others) => (b, a :: others)

/-- Adds pairs of slots; new ones are to be matched next, the last one first. -/
def pairSlots? : List (Slot × Slot) → Partial → Option Partial
  | [], state => some state
  | (slot, image) :: rest, (names, pending) =>
    match names.insert? slot image with
    | none => none
    | some extended =>
      let isKnown := names.get? slot == some image
      pairSlots? rest (extended, if isKnown then pending else (slot, image) :: pending)

/-- Pairs two productions, if they have the same shape and no slot contradicts. -/
def pairProductions? (own other : Template) (state : Partial) : Option Partial :=
  if own.sameShape other then pairSlots? (own.slots.zip other.slots) state else none

/-- All ways to pair the productions of two rules. -/
def matchings : List Template → List Template → Partial → List Partial
  | [], _, state => [state]
  | own :: rest, others, state =>
    (picks others).flatMap fun (other, others) =>
      match pairProductions? own other state with
      | some state => matchings rest others state
      | none => []

/-- All ways to complete a renaming, in at most `steps` steps. -/
def complete (g h : Grammar) : Nat → Partial → List SlotRenaming
  | _, (names, []) => [names]
  | 0, (_, _ :: _) => []
  | steps + 1, (names, (slot, image) :: pending) =>
    match g.rules.get? slot, h.rules.get? image with
    | none, none => complete g h steps (names, pending)
    | some own, some other =>
      if own.length = other.length then
        (matchings own other (names, pending)).flatMap (complete g h steps)
      else []
    | _, _ => []

end Isomorphism

namespace Grammar

/-- A bound on the number of slots of a grammar. -/
def slotBound (g : Grammar) : Nat := 1 + (g.slots.flatMap g.references).length

/-- The renamings that make `h` of `g`, each once. -/
def isomorphisms (g h : Grammar) : List SlotRenaming :=
  if g.rules.size = h.rules.size then
    let start := SlotRenaming.ofPairs [(g.start, h.start)]
    (OrderedSet.ofList
      (Isomorphism.complete g h g.slotBound (start, [(g.start, h.start)]))).toList
  else []

/-- Whether some renaming makes `h` of `g`. -/
def isIsomorphic (g h : Grammar) : Bool := !(g.isomorphisms h).isEmpty

end Grammar

end GrammarInduction
