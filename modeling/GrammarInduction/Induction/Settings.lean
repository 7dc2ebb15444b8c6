import GrammarInduction.Failure
import GrammarInduction.Json.Reader
import GrammarInduction.Learner.Candidate

/-!
# Settings of induction

`Settings` says how a grammar is induced. `Settings.read?` reads settings from a JSON text: an object
with the names of fields, or an array of values in the order of the fields (`Field.all`). Fields that
are left out keep their defaults, and members with other names count for nothing, so long as the text
is well-formed. A field given twice, or given a value of another kind, is refused.
-/

namespace GrammarInduction

/-- How a grammar is induced. -/
structure Settings where
  /-- How similar the values of two slots have to be for the slots to be merged. -/
  threshold : Float := 1.0
  /-- Leave out slots beside slots. -/
  minimalVariables : Bool := true
  /-- How many words a slot may cover in the first round of learning. -/
  wordsPerSlot : Nat := 1
  /-- Prune the learned tree. -/
  prune : Bool := true
  /-- How often templates are recalculated at most, if not until they rest. -/
  maxRecalculations : Option Nat := none
  /-- Judge later pairs of templates by their best merge, not by their first. -/
  judgeByBest : Bool := true
  /-- The greatest depth of the last tree. -/
  maxDepth : Option Nat := none
  /-- Try only so many optimal alignments. -/
  maxAlignments : Option Nat := some defaultAlignments

namespace Settings

/-- How to learn the tree. -/
def learner (s : Settings) : Learner where
  minimalVariables := s.minimalVariables
  wordsPerSlot := s.wordsPerSlot
  judgeByBest := s.judgeByBest
  maxAlignments := s.maxAlignments

/-! ## Fields -/

/-- A field of settings. -/
inductive Field where
  | threshold
  | minimalVariables
  | wordsPerSlot
  | prune
  | maxRecalculations
  | judgeByBest
  | maxDepth
  | maxAlignments
  deriving DecidableEq, Repr

namespace Field

/-- The fields in order. -/
def all : List Field :=
  [threshold, minimalVariables, wordsPerSlot, prune, maxRecalculations, judgeByBest, maxDepth,
    maxAlignments]

/-- The name of a field in a text. -/
def name : Field → String
  | threshold => "relative_similarity_threshold"
  | minimalVariables => "minimal_variables"
  | wordsPerSlot => "words_per_slot"
  | prune => "prune_redundant"
  | maxRecalculations => "max_recalculation"
  | judgeByBest => "use_best_merge_candidate"
  | maxDepth => "max_depth"
  | maxAlignments => "max_alignments"

/-- The field of a name. -/
def ofName? (name : String) : Option Field := all.find? fun f => f.name == name

end Field

/-! ## Values of fields -/

/-- A double; whole numbers are rounded to one. -/
def double? : Json → Option Float
  | .number (some (.natural n)) => some (Float.ofNat n)
  | .number (some (.negative n)) => some (-Float.ofNat n)
  | .number (some (.real x)) => some x
  | _ => none

/-- A truth value. -/
def truth? : Json → Option Bool
  | .bool b => some b
  | _ => none

/-- A count. -/
def count? : Json → Option Nat
  | .number (some (.natural n)) => some n
  | _ => none

/-- A bound, or null for no bound. -/
def bound? : Json → Option (Option Nat)
  | .null => some none
  | value => (count? value).map some

/-- Sets a field to a value, if the value is of the right kind. -/
def set? (s : Settings) (field : Field) (value : Json) : Option Settings :=
  match field with
  | .threshold => (double? value).map fun x => { s with threshold := x }
  | .minimalVariables => (truth? value).map fun b => { s with minimalVariables := b }
  | .wordsPerSlot => (count? value).map fun n => { s with wordsPerSlot := n }
  | .prune => (truth? value).map fun b => { s with prune := b }
  | .maxRecalculations => (bound? value).map fun n => { s with maxRecalculations := n }
  | .judgeByBest => (truth? value).map fun b => { s with judgeByBest := b }
  | .maxDepth => (bound? value).map fun n => { s with maxDepth := n }
  | .maxAlignments => (bound? value).map fun n => { s with maxAlignments := n }

/-! ## Reading -/

/-- Sets the fields that the members of an object name; `done` holds those already set. -/
def setMembers? : List (Option String × Json) → List Field → Settings → Option Settings
  | [], _, s => some s
  | (none, _) :: _, _, _ => none
  | (some name, value) :: rest, done, s =>
    match Field.ofName? name with
    | none => setMembers? rest done s
    | some field =>
      if done.contains field then none
      else (s.set? field value).bind fun s => setMembers? rest (field :: done) s

/-- Sets fields to the items of an array, one after the other. -/
def setItems? : List Field → List Json → Settings → Option Settings
  | _, [], s => some s
  | [], _ :: _, _ => none
  | field :: fields, value :: values, s => (s.set? field value).bind (setItems? fields values)

/-- The settings of an object or array. -/
def ofJson? : Json → Option Settings
  | .object members => setMembers? members [] {}
  | .array items => setItems? Field.all items {}
  | _ => none

/-- The settings of a text. -/
def read? (text : String) : Except Failure Settings :=
  match (Json.parse? text).bind ofJson? with
  | some settings => .ok settings
  | none => .error .malformed

end Settings

end GrammarInduction
