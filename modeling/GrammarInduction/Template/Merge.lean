import GrammarInduction.Alignment
import GrammarInduction.Template

/-!
# Merging templates

Two templates are merged along an alignment of their tokens: equal tokens are kept, and anonymous
slots stand where the templates differ. `Template.merges` gives one merge for each optimal alignment
that the policy admits, `Template.distinctMerges` drops repetitions, and `Template.mergeAll` folds
a list of templates into one.

* Where slots would stand side by side, some are left out (`absorbed`): a deletion or insertion
  never adds to an anonymous slot; under `minimalVariables` neither does a substitution, and an
  anonymous slot that both templates share is left out after any slot.
* A merge that is longer than both templates is admitted only by `allowLonger`, and one with fewer
  literals than `minLiterals` never.

The merge of the `k`-th alignment takes its fresh slots from the `k`-th block of the supply, and in
it the slot for the `i`-th operation is the `i`-th number. So slots made earlier are smaller, which
is all that anybody may ask of them.
-/

namespace GrammarInduction

/-- How many optimal alignments are tried unless something else is said. -/
def defaultAlignments : Nat := 4096

/-- Which merges are wanted. -/
structure MergePolicy where
  /-- Leave out slots beside slots. -/
  minimalVariables : Bool := true
  /-- Admit merges longer than both templates. -/
  allowLonger : Bool := false
  /-- Admit only merges with at least so many literals. -/
  minLiterals : Option Nat := none
  /-- Try only so many optimal alignments. -/
  maxAlignments : Option Nat := some defaultAlignments
  deriving DecidableEq, Repr

namespace Template

/-- Whether a token is an anonymous slot. -/
def isAnonymous : Token → Bool
  | .slot (.anonymous _) => true
  | _ => false

/-- Whether the token of an operation is left out, given the token put last. -/
def absorbed (minimal : Bool) (last : Option Token) : EditOp → Token → Bool
  | .keep, token => minimal && isAnonymous token && last.any Token.isSlot
  | .substitute, _ => minimal && last.any isAnonymous
  | .delete, _ => last.any isAnonymous
  | .insert, _ => last.any isAnonymous

/-- The tokens of the first template that an operation leaves for the following ones. -/
def afterOp : EditOp → List Token → List Token
  | .insert, tokens => tokens
  | _, tokens => tokens.tail

/-- The token that an operation puts: the shared one, or the fresh slot `id`. -/
def tokenOf : EditOp → List Token → Nat → Token
  | .keep, token :: _, _ => token
  | _, _, id => .slot (.anonymous id)

/-- The tokens put along an alignment, after the token `last`, with `id` the next fresh slot. -/
def mergedTokens (minimal : Bool) : List EditOp → List Token → Option Token → Nat → List Token
  | [], _, _, _ => []
  | op :: ops, tokens, last, id =>
    let token := tokenOf op tokens id
    if absorbed minimal last op token then
      mergedTokens minimal ops (afterOp op tokens) last (id + 1)
    else token :: mergedTokens minimal ops (afterOp op tokens) (some token) (id + 1)

/-- Whether a policy admits a merge of two templates. -/
def admitted (policy : MergePolicy) (first second merged : Template) : Bool :=
  (policy.allowLonger || merged.length ≤ first.length || merged.length ≤ second.length) &&
    policy.minLiterals.all fun least => least ≤ merged.literals.length

/-- One merge for each optimal alignment that is tried and whose merge is admitted, with the supply
after. -/
def merges (policy : MergePolicy) (first second : Template) (supply : Nat) : List Template × Nat :=
  let walks := Alignment.alignments policy.maxAlignments first.tokens second.tokens
  let block := first.length + second.length
  let merged := walks.zipIdx.map fun (ops, k) =>
    (⟨mergedTokens policy.minimalVariables ops first.tokens none (supply + k * block)⟩ : Template)
  (merged.filter (admitted policy first second), supply + walks.length * block)

/-- The merges without repetitions, with the supply after. -/
def distinctMerges (policy : MergePolicy) (first second : Template) (supply : Nat) :
    List Template × Nat :=
  let (merged, supply) := merges policy first second supply
  ((OrderedSet.ofList merged).toList, supply)

/-- The running merge of templates, and the supply after. A step without an admitted merge leaves
the running merge as it is; once it has the shape of `target`, the result is `target`. -/
def mergeFrom (policy : MergePolicy) (target : Option Template) (current : Template) :
    List Template → Nat → Template × Nat
  | [], supply => (current, supply)
  | next :: rest, supply =>
    let (candidates, supply) := merges policy current next supply
    let current := candidates.headD current
    match target with
    | some t =>
      if t.sameShape current then (t, supply) else mergeFrom policy target current rest supply
    | none => mergeFrom policy target current rest supply

/-- The merge of all templates of a list, no less literal than `target` and `target` itself where
that is as general as needed. -/
def mergeAll (templates : List Template) (minimalVariables : Bool) (target : Option Template)
    (supply : Nat) : Option Template × Nat :=
  match templates with
  | [] => (target, supply)
  | first :: rest =>
    let policy : MergePolicy :=
      { minimalVariables, minLiterals := target.map fun t => t.literals.length }
    let (merged, supply) := mergeFrom policy target first rest supply
    (some merged, supply)

end Template

end GrammarInduction
