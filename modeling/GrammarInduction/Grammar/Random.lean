import GrammarInduction.Grammar
import GrammarInduction.Template.Filling

/-!
# Generating one template at random

A choice is made by drawing 32-bit words from a list; when the list is used up, zeros are drawn.
`pick` chooses a number below `n` with equal chances: the product of `n` and a word has a high and a
low half, the high half is the choice, and a word whose low half is too large is drawn again.

`Grammar.generateRandomly?` chooses a production for each occurrence of a slot, from left to right
and outside in, and gives back the words that were not drawn.
-/

namespace GrammarInduction

/-- The number of 32-bit words. -/
def wordCount : Nat := UInt32.size

/-- The greatest low half with which a choice below `n` is accepted: one less than `n` shifted so that
its first bit is the first bit of a word. -/
def acceptedLow (n : Nat) : Nat := (n <<< (31 - n.log2)) - 1

/-- A number below `n`, and the words that are left. -/
def pick (n : Nat) : List Nat → Nat × List Nat
  | [] => (0, [])
  | word :: words =>
    if word * n % wordCount ≤ acceptedLow n then (word * n / wordCount, words) else pick n words

/-- Goes through a list with a supply of words. -/
def mapWords {α : Type u} {β : Type v} (f : α → List Nat → β × List Nat) :
    List α → List Nat → List β × List Nat
  | [], words => ([], words)
  | a :: as, words =>
    let (b, words) := f a words
    let (bs, words) := mapWords f as words
    (b :: bs, words)

namespace Grammar

/-- A production of a slot chosen with words, unless it has none, and the words that are left. -/
def pickProduction (g : Grammar) (slot : Slot) (words : List Nat) : Option Template × List Nat :=
  let productions := g.productions slot
  if productions.isEmpty then (none, words)
  else
    let (index, words) := pick productions.length words
    (productions[index]?, words)

/-- A template that a slot gives within a number of levels, and the words that are left. A slot
without a production stays. -/
def generateRandomly (g : Grammar) : Nat → Slot → List Nat → Template × List Nat
  | 0, slot, words => (.ofSlot slot, words)
  | depth + 1, slot, words =>
    match g.pickProduction slot words with
    | (none, words) => (.ofSlot slot, words)
    | (some production, words) =>
      let (values, words) := mapWords (generateRandomly g depth) production.slots words
      (⟨Template.fillTokens production.tokens values⟩, words)

/-- A template that a defined slot gives within a number of levels, and the words that are left. -/
def generateRandomly? (g : Grammar) (slot : Slot) (depth : Nat) (words : List Nat) :
    Except Failure (Template × List Nat) :=
  (g.productions? slot).map fun _ => g.generateRandomly depth slot words

end Grammar

end GrammarInduction
