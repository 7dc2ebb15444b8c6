import GrammarInduction.Template.Merge

/-!
# Candidates for merging

A `Learner` says how templates are merged while learning. A candidate is a pair of templates that
could be merged, with the *distance* of the merge: how many literals it loses against the input with
more of them, and how many slots it gains over the input with fewer.

* `Learner.possibleMerges` lists the merges of two templates, longer ones only if there are no
  others; there is always one (`possibleMerges_ne_nil`).
* `Learner.bestCandidate` is the candidate of the first merge of least distance, and
  `Learner.firstCandidate` that of the first merge.
* `Candidate.enqueue` puts a candidate into a queue behind those of the same or a lesser distance.
-/

namespace GrammarInduction

/-- How to learn from templates. -/
structure Learner where
  /-- Leave out slots beside slots. -/
  minimalVariables : Bool := true
  /-- How many words a slot may cover in the first round. -/
  wordsPerSlot : Nat := 1
  /-- Judge later pairs by their best merge, not by their first. -/
  judgeByBest : Bool := true
  /-- Try only so many optimal alignments. -/
  maxAlignments : Option Nat := some defaultAlignments
  deriving DecidableEq, Repr

/-- A pair of templates that could be merged. -/
structure Candidate where
  first : Template
  second : Template
  distance : Int
  /-- The merge, unless it is left to be found when it is needed. -/
  merged : Option Template
  deriving DecidableEq, Repr

namespace Learner

/-- How the learner merges two templates. -/
def policy (learner : Learner) (allowLonger : Bool) : MergePolicy where
  minimalVariables := learner.minimalVariables
  allowLonger := allowLonger
  minLiterals := none
  maxAlignments := learner.maxAlignments

/-- The merges of two templates, and the supply after: longer ones only if there are no others, and
a single slot if there are none at all. -/
def possibleMerges (learner : Learner) (first second : Template) (supply : Nat) :
    List Template × Nat :=
  match Template.distinctMerges (learner.policy false) first second supply with
  | (m :: ms, supply) => (m :: ms, supply)
  | ([], supply) =>
    match Template.distinctMerges (learner.policy true) first second supply with
    | (m :: ms, supply) => (m :: ms, supply)
    | ([], supply) => ([.ofSlot (.anonymous supply)], supply + 1)

theorem possibleMerges_ne_nil (learner : Learner) (first second : Template) (supply : Nat) :
    (learner.possibleMerges first second supply).1 ≠ [] := by
  unfold possibleMerges
  split
  · simp
  · split <;> simp

/-- The first merge of two templates, and the supply after. -/
def firstMerge (learner : Learner) (first second : Template) (supply : Nat) : Template × Nat :=
  let (merges, supply) := learner.possibleMerges first second supply
  (merges.headD .empty, supply)

/-- What a merge gives up: literals lost and slots gained. -/
def distanceOf (first second merged : Template) : Int :=
  let literals := max first.literals.length second.literals.length
  let slots := min first.slots.length second.slots.length
  ((literals : Int) - merged.literals.length) + ((merged.slots.length : Int) - slots)

/-- The first of least distance. -/
def nearest (distance : Template → Int) (best : Template) : List Template → Template
  | [] => best
  | m :: ms => nearest distance (if distance m < distance best then m else best) ms

/-- The candidate of the best merge of two templates, and the supply after. -/
def bestCandidate (learner : Learner) (first second : Template) (supply : Nat) : Candidate × Nat :=
  let (merges, supply) := learner.possibleMerges first second supply
  let best := nearest (distanceOf first second) (merges.headD .empty) merges.tail
  (⟨first, second, distanceOf first second best, some best⟩, supply)

/-- The candidate of the first merge of two templates, and the supply after. -/
def firstCandidate (learner : Learner) (first second : Template) (supply : Nat) : Candidate × Nat :=
  let (merged, supply) := learner.firstMerge first second supply
  (⟨first, second, distanceOf first second merged, some merged⟩, supply)

/-- The distance of the best merge of two templates. -/
def distance (learner : Learner) (first second : Template) : Int :=
  (learner.bestCandidate first second 0).1.distance

/-- The merge that a candidate stands for, and the supply after: its own, or else the first one. -/
def mergeOf (learner : Learner) (c : Candidate) (supply : Nat) : Template × Nat :=
  match c.merged with
  | some merged => (merged, supply)
  | none => learner.firstMerge c.first c.second supply

end Learner

namespace Candidate

/-- Whether `c` is not behind `d`: its distance is not greater. -/
def le (c d : Candidate) : Bool := c.distance ≤ d.distance

/-- A queue in ascending order of distance with one more candidate, behind its equals. -/
def enqueue (queue : List Candidate) (c : Candidate) : List Candidate :=
  queue.takeWhile (le · c) ++ c :: queue.dropWhile (le · c)

/-- A queue with more candidates, one after the other. -/
def enqueueAll (queue cs : List Candidate) : List Candidate := cs.foldl enqueue queue

theorem mem_enqueue {queue : List Candidate} {c d : Candidate} :
    d ∈ enqueue queue c ↔ d = c ∨ d ∈ queue := by
  have split : queue.takeWhile (le · c) ++ queue.dropWhile (le · c) = queue :=
    List.takeWhile_append_dropWhile
  rw [enqueue, ← List.perm_middle.symm.mem_iff, List.mem_cons, split]

end Candidate

end GrammarInduction
