import GrammarInduction.SlotValues.Similarity

/-!
# Merging slots

`SlotValues.merge` unites slots with similar values and takes out detours. It works in rounds over
the slots that changed in the round before (`settle`), in ascending order of slots. In a round each
slot that is not replaced

1. replaces the later slots with similar values and takes their values in, and is itself replaced
   by a later slot that is its only value (`absorb`);
2. gives up the values that a later slot among its values provides (`dropProvided`), and the slots
   among its values that the others provide for (`dropCovered`);
3. follows the replacements in its values (`follow`) and gives itself up as a value (`dropSelf`);
4. is replaced by the slot that is left as its only value.

A replaced slot is pointed at the end of its chain of replacements (`compress`). "Later" is meant in
the order in which the slots came in. When no slot changes any more, slots that are a value of just
one other slot are dissolved in it (`inlineAll`).

The procedure is stated for any test of similarity; `merge` takes the one of a threshold.
-/

namespace GrammarInduction

namespace SlotValues

/-- Rounds allowed for each slot. -/
def roundsPerSlot : Nat := 64

/-- The slots that are values by themselves. -/
def slotMembers (templates : OrderedSet Template) : List Slot :=
  templates.toList.filterMap Template.single?

/-- Without the slot itself as a value. -/
def dropSelf (slot : Slot) (templates : OrderedSet Template) : OrderedSet Template :=
  templates.filter fun t => !(t.single? == some slot)

/-! ## Chains of replacements -/

/-- The end of the chain of replacements that begins at `target`, for a slot that must not occur in
it; a chain of more than `limit` steps counts as endless. -/
def chainEnd? (v : SlotValues) (slot : Slot) : Nat → Slot → Option Slot
  | limit, target =>
    match v.replacement? target with
    | none => some target
    | some next =>
      if next = slot then none
      else
        match limit with
        | 0 => none
        | limit + 1 => chainEnd? v slot limit next

/-- Points a replaced slot at the end of its chain. Also tells whether the chain had an inner
link. -/
def compress (v : SlotValues) (limit : Nat) (slot : Slot) : Except Failure (SlotValues × Bool) :=
  match v.replacement? slot with
  | none => .ok (v, false)
  | some target =>
    match v.chainEnd? slot limit target with
    | none => .error (.replacementCycle slot)
    | some last => .ok (v.replace slot last, v.isReplaced target)

/-- Points every replaced slot at the end of its chain. -/
def compressAll (v : SlotValues) : Except Failure SlotValues :=
  let replaced := v.replacements.keys
  let limit := v.size + replaced.length
  replaced.foldlM (fun v slot => (v.compress limit slot).map Prod.fst) v

/-! ## One slot in one round -/

/-- A slot at work: all slot values, its own values so far, the slots that have changed, and whether
it has changed itself. -/
structure Work where
  all : SlotValues
  own : OrderedSet Template
  updated : List Slot
  changed : Bool

/-- Replaces `later` by `slot` if their values are similar, and `slot` by `later` if that is its
only value. -/
def absorb (alike : OrderedSet Template → OrderedSet Template → Bool) (slot : Slot) (w : Work)
    (later : Slot) : Work :=
  let theirs := w.all.getD later
  let w :=
    if !w.all.isReplaced later && alike w.own theirs then
      { all := w.all.replace later slot, own := w.own.insertAll theirs.toList
        updated := later :: w.updated, changed := true }
    else w
  if !w.all.isReplaced slot && (w.own.only?.bind Template.single?) == some later then
    { w with all := w.all.replace slot later, updated := later :: w.updated, changed := true }
  else w

/-- Changes the values of the slot at work, and notes whether there are fewer. -/
def Work.narrow (w : Work) (f : OrderedSet Template → OrderedSet Template) : Work :=
  let own := f w.own
  { w with own, changed := w.changed || own.size != w.own.size }

/-- Gives up the values that the later slots among the values provide. -/
def dropProvided (all : SlotValues) (later : List Slot) (own : OrderedSet Template) :
    OrderedSet Template :=
  (slotMembers own).foldl
    (fun own slot =>
      if later.contains slot then
        match all.get? slot with
        | some provided => own.filter fun t => !provided.contains t
        | none => own
      else own)
    own

/-- Whether a slot provides nothing beyond literal values and what other slots provide. -/
def isCovered (all : SlotValues) (literal : List Template) (others : List Slot) (slot : Slot) : Bool :=
  match all.get? slot with
  | none => false
  | some provided =>
    let content := OrderedSet.ofList (literal ++ others.flatMap fun s => (all.getD s).toList)
    provided.subset content

/-- The slots of a list that the literal values and the slots kept so far or still to come do not
provide for. -/
def keepUncovered (all : SlotValues) (literal : List Template) (kept : List Slot) :
    List Slot → List Slot
  | [] => kept
  | slot :: rest =>
    if isCovered all literal (kept ++ rest) slot then keepUncovered all literal kept rest
    else keepUncovered all literal (kept ++ [slot]) rest

/-- Gives up the slots among the values that the other values provide for. -/
def dropCovered (all : SlotValues) (own : OrderedSet Template) : OrderedSet Template :=
  let literal := own.toList.filter fun t => !t.hasSlots
  let members := slotMembers own
  let kept := keepUncovered all literal [] members
  (members.filter fun s => !kept.contains s).foldl
    (fun own slot => own.filter fun t => !(t == .ofSlot slot)) own

/-- Whether a value mentions a replaced slot. -/
def mentionsReplaced (all : SlotValues) (own : OrderedSet Template) : Bool :=
  own.toList.any fun t => t.slots.any all.isReplaced

/-- Follows the replacements in the values, one step. -/
def follow (all : SlotValues) (own : OrderedSet Template) : OrderedSet Template :=
  if all.mentionsReplaced own then
    OrderedSet.ofList (own.toList.map (Template.rename all.replacements))
  else own

/-- The whole work on a slot that is not replaced. -/
def reduce (alike : OrderedSet Template → OrderedSet Template → Bool) (slot : Slot)
    (later : List Slot) (w : Work) : Work :=
  let w := later.foldl (absorb alike slot) w
  let w := w.narrow (dropProvided w.all later)
  let w := w.narrow (dropCovered w.all)
  let w := { w with own := w.all.follow w.own, changed := w.changed || w.all.mentionsReplaced w.own }
  let w := w.narrow (dropSelf slot)
  let w :=
    match w.own.only?.bind Template.single? with
    | some target => { w with all := w.all.replace slot target, changed := true }
    | none => w
  { w with all := w.all.insert slot w.own }

/-! ## Rounds -/

/-- The slots that came in after a slot. -/
def laterThan (slots : List Slot) (slot : Slot) : List Slot :=
  (slots.dropWhile fun s => !(s == slot)).tail

/-- The turn of one slot in a round: the slot values, and the slots changed so far. -/
def turn (alike : OrderedSet Template → OrderedSet Template → Bool) (slots : List Slot)
    (state : SlotValues × List Slot) (slot : Slot) : Except Failure (SlotValues × List Slot) :=
  let (v, updated) := state
  if v.isReplaced slot then
    (v.compress slots.length slot).map fun (v, changed) =>
      (v, if changed then slot :: updated else updated)
  else
    let w := reduce alike slot (laterThan slots slot) ⟨v, v.getD slot, updated, false⟩
    .ok (w.all, if w.changed then slot :: w.updated else w.updated)

/-- Rounds over the slots that changed, at most `rounds` of them. -/
def settle (alike : OrderedSet Template → OrderedSet Template → Bool) (slots sorted : List Slot)
    (allowed : Nat) : Nat → SlotValues → List Slot → Except Failure SlotValues
  | _, v, [] => .ok v
  | 0, _, _ :: _ => .error (.mergingUnsettled allowed)
  | rounds + 1, v, dirty => do
    let (v, updated) ← dirty.foldlM (turn alike slots) (v, [])
    settle alike slots sorted allowed rounds v (sorted.filter updated.contains)

/-! ## Dissolving slots used once -/

/-- Follows the replacements in the values of every slot that is not replaced. -/
def followAll (v : SlotValues) : SlotValues :=
  v.unreplaced.foldl
    (fun v slot =>
      let own := v.getD slot
      if v.mentionsReplaced own then v.insert slot (dropSelf slot (v.follow own)) else v)
    v

/-- For each slot that is a value by itself: the slots not replaced that have it as a value. -/
def containers (v : SlotValues) : OrderedMap Slot (OrderedSet Slot) :=
  (v.values.entries.filter fun e => !v.isReplaced e.1).foldl
    (fun m (container, templates) =>
      (slotMembers templates).foldl
        (fun m slot => m.update slot fun known => (known.getD .empty).insert container) m)
    .empty

/-- The first slot that is a value of just one other slot, with that slot. -/
def usedOnce? (v : SlotValues) : Option (Slot × Slot) :=
  v.containers.entries.findSome? fun (slot, users) =>
    match users.only? with
    | some container =>
      if container ≠ slot ∧ v.isReplaced slot = false ∧ v.contains slot = true then
        some (slot, container)
      else none
    | none => none

/-- Puts the values of a slot in place of the slot, and replaces the slot. -/
def inlineInto (v : SlotValues) (slot container : Slot) : SlotValues :=
  let rest := (v.getD container).filter fun t => !(t == .ofSlot slot)
  let inlined := (v.getD slot).toList.filter fun t => !(t == .ofSlot container)
  (v.insert container (rest.insertAll inlined)).replace slot container

/-- Dissolves slots used once, one after the other. Each time one slot more is replaced. -/
def inlineAll : Nat → SlotValues → SlotValues
  | 0, v => v
  | steps + 1, v =>
    match v.usedOnce? with
    | some (slot, container) => inlineAll steps (v.inlineInto slot container)
    | none => v

/-! ## All together -/

/-- Merges slots by a test of similarity. -/
def mergeBy (alike : OrderedSet Template → OrderedSet Template → Bool) (v : SlotValues) :
    Except Failure SlotValues := do
  let slots := v.slots
  let sorted := slots.mergeSort Slot.le
  let allowed := (slots.length + 1) * roundsPerSlot
  let settled ← settle alike slots sorted allowed allowed v sorted
  let compressed ← settled.compressAll
  (inlineAll compressed.size compressed.followAll).compressAll

/-- Merges slots whose values are similar at a threshold. -/
def merge (threshold : Float) (v : SlotValues) : Except Failure SlotValues :=
  v.mergeBy (similar threshold)

end SlotValues

end GrammarInduction
