import GrammarInduction.Arena.Prune
import GrammarInduction.Grammar.OfValues
import GrammarInduction.Induction.Settings
import GrammarInduction.Learner

/-!
# Induction of grammars

`induce` makes a grammar of lines of text. It learns a tree of templates, prunes it, names its slots
and merges similar ones, takes out what the values of the slots make redundant, and recalculates the
templates of the tree until they rest; a grammar is read off the last tree.

The outcome is a `Report`: the trees on the way, each with the arena of its time, and the grammar or
the failure. A failure leaves the stages before it. Stages are only looked at: the result of a report
does not depend on them (`result_after`).
-/

namespace GrammarInduction

namespace Induction

/-- A tree on the way. -/
structure Stage where
  label : String
  arena : Arena
  root : Nat

/-- What came of an induction. -/
structure Report where
  stages : List Stage
  result : Except Failure Grammar

namespace Report

/-- A report of a failure. -/
def failed (failure : Failure) : Report := ⟨[], .error failure⟩

/-- A report with one more stage before the others. -/
def after (stage : Stage) (r : Report) : Report := { r with stages := stage :: r.stages }

/-- Goes on from an outcome. A failure is the report. -/
def onward {α : Type} (outcome : Except Failure α) (next : α → Report) : Report :=
  match outcome with
  | .error e => failed e
  | .ok x => next x

@[simp] theorem result_after (stage : Stage) (r : Report) : (r.after stage).result = r.result := rfl

theorem result_onward_eq_ok {α : Type} {outcome : Except Failure α} {next : α → Report}
    {g : Grammar} :
    (onward outcome next).result = .ok g ↔ ∃ x, outcome = .ok x ∧ (next x).result = .ok g := by
  cases outcome with
  | error e => simp [onward, failed]
  | ok x => simp [onward]

end Report

/-! ## The last tree -/

/-- The grammar of a tree whose slots are merged already. -/
def readOff (a : Arena) (root : Nat) : Report :=
  ⟨[], (a.slotValues? root).map fun v => Grammar.ofValues (a.template root) v⟩

/-- Takes out what slot values make redundant, bounds the depth, and reads off the grammar. -/
def conclude (settings : Settings) (a : Arena) (root : Nat) (v : SlotValues) : Report :=
  let (a, spliced) := a.splice v.values root
  Report.after ⟨"6. Collapsed final", a, spliced⟩ <|
    match settings.maxDepth with
    | none => readOff a spliced
    | some depth =>
      let (a, flat) := a.flatten spliced depth
      Report.after ⟨"7. Reduced depth", a, flat⟩ (readOff a flat)

/-! ## Recalculation -/

/-- A tree with named and merged slots, and the values of the slots. -/
structure Simplified where
  arena : Arena
  root : Nat
  values : SlotValues

/-- Names the anonymous slots of a tree, merges similar slots, and renames the tree accordingly. -/
def simplify? (threshold : Float) (a : Arena) (root : Nat) : Except Failure Simplified :=
  let (a, named) := a.nameSlots {} root
  (a.slotValues? named >>= SlotValues.merge threshold).map fun v =>
    let (a, renamed) := a.rename v.replacements named
    ⟨a, renamed, v⟩

/-- How often templates are recalculated when no bound is set. -/
def defaultRecalculations : Nat := 256

/-- A tree that is being recalculated: the tree to go on with, the tree that recalculation has made
of it if it has, and the values of the slots. -/
structure Progress where
  arena : Arena
  root : Nat
  recalculated : Option Nat
  values : SlotValues
  supply : Nat

namespace Progress

/-- Whether recalculation has changed nothing. -/
def isSettled (p : Progress) : Bool := p.recalculated == some p.root

/-- The tree to recalculate next. -/
def next (p : Progress) : Nat := p.recalculated.getD p.root

/-- The report of a round, with the tree to recalculate as a stage unless it is the first one. -/
def observed (p : Progress) (round : Nat) (r : Report) : Report :=
  if p.recalculated.isSome then r.after ⟨s!"5 ({round}). Recalculated", p.arena, p.next⟩ else r

end Progress

/-- Recalculates the tree to go on with. -/
def recalculate? (settings : Settings) (p : Progress) : Except Failure Progress :=
  let ((a, merged), supply) := p.arena.recalculate settings.minimalVariables p.next p.supply
  (simplify? settings.threshold a merged).map fun s =>
    ⟨s.arena, p.next, some s.root, s.values, supply⟩

/-- Recalculates until the tree rests, at most so many times more, and concludes. When the times are
up the last tree counts if a bound was set, and it is a failure if none was. -/
def settle (settings : Settings) : Nat → Nat → Progress → Report
  | 0, round, p =>
    if p.isSettled || settings.maxRecalculations.isSome then
      conclude settings p.arena p.root p.values
    else p.observed round (.failed (.recalculationUnsettled round))
  | times + 1, round, p =>
    if p.isSettled then conclude settings p.arena p.root p.values
    else
      p.observed round (.onward (recalculate? settings p) (settle settings times (round + 1)))

/-! ## The first tree -/

/-- Goes on with a learned tree, pruned or not. -/
def refine (settings : Settings) (a : Arena) (root supply : Nat) : Report :=
  .onward (simplify? settings.threshold a root) fun s =>
    Report.after ⟨"3. Simplified", s.arena, s.root⟩ <|
      let (a, spliced) := s.arena.splice s.values.values s.root
      Report.after ⟨"4. Collapsed simplified", a, spliced⟩ <|
        settle settings (settings.maxRecalculations.getD defaultRecalculations) 0
          ⟨a, spliced, none, s.values, supply⟩

/-- Goes on with a learned tree. -/
def pruneAndRefine (settings : Settings) (a : Arena) (root supply : Nat) : Report :=
  if settings.prune then
    let (a, pruned) := a.prune root
    Report.after ⟨"2. Pruned", a, pruned⟩ (refine settings a pruned supply)
  else refine settings a root supply

end Induction

/-- Induces a grammar from lines. -/
def induce (settings : Settings) (tokenizer : Tokenizer) (lines : List String) : Induction.Report :=
  .onward (settings.learner.learnLines .empty tokenizer lines 0) fun ((a, root), supply) =>
    Induction.Report.after ⟨"1. Learned", a, root⟩
      (Induction.pruneAndRefine settings a root supply)

end GrammarInduction
