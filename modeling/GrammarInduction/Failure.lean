import GrammarInduction.Template

/-!
# Failures

What can go wrong, as a type of causes. `Failure.message` is the text of each; a document that
cannot be read as data (`malformed`) has none of its own.

The causes under *broken guarantees* are reported where a procedure finds that what it relies on
does not hold, instead of answering wrongly. The last cause is a limit on learning.
-/

namespace GrammarInduction

/-- A cause of failure. -/
inductive Failure where
  /-- There were no lines to learn from. -/
  | emptyCorpus
  /-- There were not as many values as slots. -/
  | arityMismatch (slots values : Nat)
  /-- A slot was given two values. -/
  | repeatedSlot (slot : Slot)
  /-- A document saves a variable, which a grammar cannot express. -/
  | savedVariable (action : String)
  /-- A grammar document is not an object. -/
  | notAnObject
  /-- The productions of a non-terminal are neither a text nor a list of texts. -/
  | badProductions (name : String)
  /-- One template does not cover the other. -/
  | notCovered (template target : Template)
  /-- A non-terminal has no definition. -/
  | undefinedSlot (slot : Slot)
  /-- A document is not well-formed, or not what is asked for. -/
  | malformed
  /-- Broken guarantee: merging slots did not come to rest. -/
  | mergingUnsettled (rounds : Nat)
  /-- Broken guarantee: a slot is replaced by itself through others. -/
  | replacementCycle (slot : Slot)
  /-- Broken guarantee: nothing is left to merge although several templates are active. -/
  | queueExhausted (active : Nat)
  /-- Broken guarantee: a learned tree has no single root. -/
  | rootNotUnique (active : Nat)
  /-- Broken guarantee: templates were still changing after all rounds. -/
  | recalculationUnsettled (rounds : Nat)
  /-- Learning was given up at its limit on rounds, which it cannot reach under `minimalVariables`. -/
  | roundsExhausted
  deriving DecidableEq, Repr

namespace Failure

/-- What is said about a broken guarantee. -/
def broken (what : String) : String := "internal invariant violated: " ++ what

/-- What is said about a failure. -/
def message : Failure → String
  | emptyCorpus => "cannot induce a grammar from an empty corpus"
  | arityMismatch slots values => s!"cannot fill {slots} slots using {values} values"
  | repeatedSlot slot => s!"slot {slot.render} occurs more than once in a slot assignment"
  | savedVariable action =>
    s!"unsupported tracery syntax: saved variable {action} cannot be represented"
  | notAnObject => "invalid grammar document: expected an object of productions"
  | badProductions name =>
    s!"invalid grammar document: productions of \"{name}\" must be a string or a list of strings"
  | notCovered template target =>
    s!"template \"{template.render}\" does not cover \"{target.render}\""
  | undefinedSlot slot => s!"there is no non-terminal named {slot.render} in the grammar"
  | malformed => "malformed document"
  | mergingUnsettled rounds => broken s!"slot merging did not converge after {rounds} rounds"
  | replacementCycle slot => broken s!"replacement cycle through slot {slot.render}"
  | queueExhausted active => broken s!"merge queue ran dry with {active} templates still active"
  | rootNotUnique active =>
    broken s!"a learned tree needs exactly one active template, found {active}"
  | recalculationUnsettled rounds =>
    broken s!"templates still changing after {rounds} recalculations"
  | roundsExhausted => broken "learning did not come to an end"

end Failure

end GrammarInduction
