import GrammarInduction.Learner.State
import GrammarInduction.Text.Blank

/-!
# Learning trees of templates

Learning begins with the templates of all lines active and ends with one active template, the root
of a tree over the lines. In each round the closest pairs of active templates are merged, and the
merged templates are paired with their closest partners.

* `initialCandidates` pairs each template with the later ones whose distance is within a window of
  the least one; `wordsPerSlot` is the width of the window.
* `laterCandidates` pairs each new template with its partners at the least distance.
* `round` takes the first valid pair of the queue and all valid pairs that may go with it: those
  within the window in the first round, those at the same distance later.

A template becomes active as a parent once at most, and every round ends the activity of another
template. Under `minimalVariables` what can be formed is a word of bounded length over the letters
of the lines and a slot, and `roundBound` is more than twice the number of these words. Without it
merges may get longer, and no number of rounds is known to be enough: `run` may then end in
`roundsExhausted`, where it is the bound that fails and not learning.
-/

namespace GrammarInduction

namespace Learner

/-- Whether a distance is within the window above the least one. The end of the window is reckoned
in signed words of 64 bits. -/
def isWithinWindow (learner : Learner) (least distance : Int) : Bool :=
  distance ≤ (least + learner.wordsPerSlot - 1).bmod UInt64.size

/-- The partners of a template kept so far, each with its distance, and the least distance. -/
structure Closest where
  least : Option Int
  partners : List (Int × Template)

/-- Considers one more partner: a closer one comes first and moves the window, another one comes
last if it is within the window. -/
def consider (learner : Learner) (template : Template) (closest : Closest) (other : Template) :
    Closest :=
  if other == template then closest
  else
    let d := learner.distance template other
    match closest.least with
    | some least =>
      if least ≤ d then
        if learner.isWithinWindow least d then
          { closest with partners := closest.partners ++ [(d, other)] }
        else closest
      else ⟨some d, (d, other) :: closest.partners.filter fun p => learner.isWithinWindow d p.1⟩
    | none => ⟨some d, (d, other) :: closest.partners.filter fun p => learner.isWithinWindow d p.1⟩

/-- The candidates of each template with the closest later ones. Their merges are left to be
found. -/
def initialCandidates (learner : Learner) : List Template → List Candidate
  | [] => []
  | template :: rest =>
    let closest := rest.foldl (learner.consider template) ⟨none, []⟩
    closest.partners.map (fun (d, other) => ⟨template, other, d, none⟩) ++
      learner.initialCandidates rest

/-- The candidates of least distance among candidates in order. -/
def leastDistant (cs : List Candidate) : List Candidate :=
  cs.filter fun c => cs.all fun d => c.distance ≤ d.distance

/-- The candidates of a template with others, and the supply after. -/
def candidatesWith (learner : Learner) (template : Template) :
    List Template → Nat → List Candidate × Nat
  | [], supply => ([], supply)
  | other :: rest, supply =>
    let (c, supply) :=
      if learner.judgeByBest then learner.bestCandidate template other supply
      else learner.firstCandidate template other supply
    let (cs, supply) := candidatesWith learner template rest supply
    (c :: cs, supply)

/-- The candidates of new templates with their closest partners among the later new ones and the
active ones, and the supply after. -/
def laterCandidates (learner : Learner) (active : List Template) :
    List Template → Nat → List Candidate × Nat
  | [], supply => ([], supply)
  | template :: rest, supply =>
    let others := (OrderedSet.ofList (rest ++ active)).filter fun t => !(t == template)
    let (cs, supply) := learner.candidatesWith template others.toList supply
    let (more, supply) := laterCandidates learner active rest supply
    (leastDistant cs ++ more, supply)

/-! ## Rounds -/

/-- Where learning stands between two rounds. -/
structure Progress where
  state : LearnerState
  /-- The candidates in ascending order of distance. -/
  queue : List Candidate
  /-- Whether no round is over yet. -/
  isFirst : Bool
  supply : Nat

/-- Whether a candidate may go with the first one of a round. -/
def goesWith (learner : Learner) (isFirst : Bool) (least distance : Int) : Bool :=
  if isFirst then learner.isWithinWindow least distance else distance == least

/-- Merges candidates one after the other; gives the state, the templates they are merged into, and
the supply. -/
def mergeBatch (learner : Learner) :
    List Candidate → LearnerState → OrderedSet Template → Nat →
      LearnerState × OrderedSet Template × Nat
  | [], state, merged, supply => (state, merged, supply)
  | c :: cs, state, merged, supply =>
    let (parent, supply) := learner.mergeOf c supply
    mergeBatch learner cs (state.addParent parent [c.first, c.second]) (merged.insert parent) supply

/-- Whether a candidate of the queue goes with the first one, `top`. -/
def goes (learner : Learner) (p : Progress) (top c : Candidate) : Bool :=
  learner.goesWith p.isFirst top.distance c.distance

/-- The candidates that are merged in a round. -/
def batch (learner : Learner) (p : Progress) (top : Candidate) (rest : List Candidate) :
    List Candidate :=
  top :: (rest.takeWhile (learner.goes p top)).filter p.state.isValid

/-- One round on a queue whose first candidate is valid. -/
def round (learner : Learner) (p : Progress) (top : Candidate) (rest : List Candidate) : Progress :=
  let (state, merged, supply) :=
    learner.mergeBatch (learner.batch p top rest) p.state .empty p.supply
  let (fresh, supply) := learner.laterCandidates state.active.toList merged.toList supply
  let left := rest.dropWhile (learner.goes p top)
  { state, queue := Candidate.enqueueAll left fresh, isFirst := false, supply }

/-- Rounds until one template is active; it ends in `roundsExhausted` if another one is due after so
many. -/
def run (learner : Learner) : Nat → Progress → Except Failure Progress
  | rounds, p =>
    if p.state.isUnfinished then
      match p.queue.dropWhile fun c => !p.state.isValid c with
      | [] => .error (.queueExhausted p.state.active.size)
      | top :: rest =>
        match rounds with
        | 0 => .error .roundsExhausted
        | rounds + 1 => run learner rounds (learner.round p top rest)
    else .ok p

/-- The limit on rounds in learning from templates. Under `minimalVariables` learning never needs
more; without it this is a limit only. -/
def roundBound (templates : List Template) : Nat :=
  let size := (templates.flatMap Template.tokens).length
  2 * Nat.pow (size + 2) (2 * size + 2) + templates.length + 1

/-- The learned tree over templates, stored in an arena, and the supply after. -/
def learn (learner : Learner) (arena : Arena) (templates : List Template) (supply : Nat) :
    Except Failure ((Arena × Nat) × Nat) :=
  if templates.isEmpty then .error .emptyCorpus
  else do
    let state := LearnerState.ofTemplates templates
    let queue := Candidate.enqueueAll [] (learner.initialCandidates state.active.toList)
    let p ← learner.run (roundBound templates) ⟨state, queue, true, supply⟩
    return (← p.state.buildTree arena, p.supply)

/-- The templates of lines without the blanks at their ends, and the supply after. -/
def parseLines (tokenizer : Tokenizer) (lines : List String) (supply : Nat) : List Template × Nat :=
  Template.parseAll tokenizer .angle (lines.map Text.trim) supply

/-- The learned tree over lines, stored in an arena, and the supply after. -/
def learnLines (learner : Learner) (arena : Arena) (tokenizer : Tokenizer) (lines : List String)
    (supply : Nat) : Except Failure ((Arena × Nat) × Nat) :=
  let (templates, supply) := parseLines tokenizer lines supply
  learner.learn arena templates supply

end Learner

end GrammarInduction
