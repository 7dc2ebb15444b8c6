import GrammarInduction.Grammar
import GrammarInduction.Walk

/-!
# Expanding slots level by level

`expand` is the general form of expanding a slot of a grammar down to a number of levels: a slot
without rule, or without a level left, stands for itself (`bare`), and otherwise its productions are
combined, given what their slots expand to on one level less.

Recursion as in `expand` would compute the same expansions over and over. `expandMemo` keeps those of
defined slots in a memo, by slot and levels left, which is filled and looked up everywhere in the
recursion. Whatever the memo was filled with before, `expandMemo` gives what `expand` gives
(`expandMemo_spec`), for a way to combine that looks at the slots of the productions alone (`IsLocal`).
-/

namespace GrammarInduction

universe u

namespace Grammar

variable {β : Type u} (g : Grammar) (bare : Slot → β) (combine : (Slot → β) → List Template → β)

/-- What a slot expands to in a number of levels. -/
def expand : Nat → Slot → β
  | 0, slot => bare slot
  | depth + 1, slot =>
    match g.rules.get? slot with
    | some productions => combine (expand depth) productions
    | none => bare slot

/-! ## Recursion with a memo -/

/-- Expansions that are computed already, by slot and number of levels. -/
abbrev Memo (β : Type u) := List ((Slot × Nat) × β)

/-- The expansions of slots, one slot after the other and each once, beside those that are `known`,
and the memo after. -/
def expandEach (step : Memo β → Slot → β × Memo β) :
    List Slot → List (Slot × β) → Memo β → List (Slot × β) × Memo β
  | [], known, memo => (known, memo)
  | slot :: rest, known, memo =>
    if (known.lookup slot).isSome then expandEach step rest known memo
    else
      let (value, memo) := step memo slot
      expandEach step rest ((slot, value) :: known) memo

/-- What a slot expands to in a number of levels, and the memo after. An expansion that the memo holds
is not computed again. -/
def expandMemo : Nat → Memo β → Slot → β × Memo β
  | 0, memo, slot => (bare slot, memo)
  | depth + 1, memo, slot =>
    match g.rules.get? slot with
    | none => (bare slot, memo)
    | some productions =>
      match memo.lookup (slot, depth + 1) with
      | some done => (done, memo)
      | none =>
        let (below, memo) :=
          expandEach (expandMemo depth) (productions.flatMap Template.slots) [] memo
        let result := combine (fun s => (below.lookup s).getD (bare s)) productions
        (result, ((slot, depth + 1), result) :: memo)

/-- The expansion of one slot, by way of a memo that is empty at first. -/
def expansion (depth : Nat) (slot : Slot) : β := (expandMemo g bare combine depth [] slot).1

/-- The memo after expansions asked for one after the other. -/
def memoAfter (requests : List (Nat × Slot)) : Memo β :=
  requests.foldl (fun memo r => (expandMemo g bare combine r.1 memo r.2).2) []

/-! ## The memo holds the expansions -/

/-- Whether the productions are combined by the values at their own slots. -/
def IsLocal (combine : (Slot → β) → List Template → β) : Prop :=
  ∀ (v w : Slot → β) (ps : List Template), (∀ p ∈ ps, ∀ s ∈ p.slots, v s = w s) →
    combine v ps = combine w ps

/-- Whether each entry of a memo is what its slot expands to. -/
def IsSound (memo : Memo β) : Prop :=
  ∀ slot depth b, memo.lookup (slot, depth) = some b → b = expand g bare combine depth slot

theorem isSound_nil : IsSound g bare combine [] := fun _ _ _ h => by cases h

theorem IsSound.cons {memo : Memo β} {slot : Slot} {depth : Nat}
    (h : IsSound g bare combine memo) :
    IsSound g bare combine (((slot, depth), expand g bare combine depth slot) :: memo) := by
  intro s n b hb
  rw [List.lookup_cons] at hb
  split at hb
  next heq =>
    obtain ⟨rfl, rfl⟩ := Prod.mk.inj (eq_of_beq heq)
    exact (Option.some.inj hb).symm
  · exact h s n b hb

theorem lookup_cons_ite {known : List (Slot × β)} {s slot : Slot} {b : β} :
    ((slot, b) :: known).lookup s = if s = slot then some b else known.lookup s := by
  by_cases h : s = slot
  · simp [h]
  · have hne : (s == slot) = false := by simpa using h
    simp only [List.lookup_cons, hne, if_neg h]

/-- Slots expanded one after the other have their values, if each step gives the value of its slot
and keeps the memo as it should be. -/
theorem expandEach_spec {step : Memo β → Slot → β × Memo β} {value : Slot → β} {I : Memo β → Prop}
    (hstep : ∀ memo slot, I memo → (step memo slot).1 = value slot ∧ I (step memo slot).2)
    {slots : List Slot} {known : List (Slot × β)} {memo : Memo β}
    (hknown : ∀ s b, known.lookup s = some b → b = value s) (hmemo : I memo) :
    (∀ s, s ∈ slots ∨ known.lookup s = some (value s) →
      (expandEach step slots known memo).1.lookup s = some (value s)) ∧
      I (expandEach step slots known memo).2 := by
  induction slots generalizing known memo with
  | nil => exact ⟨fun s hs => hs.resolve_left List.not_mem_nil, hmemo⟩
  | cons slot rest ih =>
    unfold expandEach
    split
    next hsome =>
      obtain ⟨b, hb⟩ := Option.isSome_iff_exists.1 hsome
      obtain rfl := hknown slot b hb
      obtain ⟨hvalues, hI⟩ := ih hknown hmemo
      refine ⟨fun s hs => hvalues s ?_, hI⟩
      by_cases heq : s = slot
      · exact .inr (heq ▸ hb)
      · exact hs.imp_left fun hs => (List.mem_cons.1 hs).resolve_left heq
    · obtain ⟨hvalue, hI⟩ := hstep memo slot hmemo
      have hknown' : ∀ s b, ((slot, (step memo slot).1) :: known).lookup s = some b →
          b = value s := by
        intro s b hb
        rw [lookup_cons_ite, hvalue] at hb
        split at hb
        next heq => rw [heq, Option.some.inj hb]
        · exact hknown s b hb
      obtain ⟨hvalues, hI⟩ := ih hknown' hI
      refine ⟨fun s hs => hvalues s ?_, hI⟩
      rw [lookup_cons_ite]
      by_cases heq : s = slot
      · exact .inr (by rw [if_pos heq, heq, hvalue])
      · rw [if_neg heq]
        exact hs.imp_left fun hs => (List.mem_cons.1 hs).resolve_left heq

/-- **The memo never changes the result**, and stays sound. -/
theorem expandMemo_spec (local_ : IsLocal combine) (depth : Nat) {memo : Memo β} (slot : Slot)
    (h : IsSound g bare combine memo) :
    (expandMemo g bare combine depth memo slot).1 = expand g bare combine depth slot ∧
      IsSound g bare combine (expandMemo g bare combine depth memo slot).2 := by
  induction depth generalizing memo slot with
  | zero => exact ⟨rfl, h⟩
  | succ depth ih =>
    simp only [expandMemo]
    split
    next hrule => exact ⟨by simp only [expand, hrule], h⟩
    next productions hrule =>
      split
      next done hdone => exact ⟨h slot (depth + 1) done hdone, h⟩
      next hnew =>
        have hempty : ∀ s b, ([] : List (Slot × β)).lookup s = some b →
            b = expand g bare combine depth s := fun _ _ hb => by cases hb
        obtain ⟨hbelow, hsound⟩ := expandEach_spec (fun _ s hm => ih s hm) hempty h
        have hresult : combine
            (fun s => ((expandEach (expandMemo g bare combine depth)
              (productions.flatMap Template.slots) [] memo).1.lookup s).getD (bare s))
            productions = expand g bare combine (depth + 1) slot := by
          simp only [expand, hrule]
          refine local_ _ _ _ fun p hp s hs => ?_
          rw [hbelow s (.inl (List.mem_flatMap.2 ⟨p, hp, hs⟩)), Option.getD_some]
        rw [hresult]
        exact ⟨rfl, hsound.cons⟩

theorem isSound_memoAfter (local_ : IsLocal combine) (requests : List (Nat × Slot)) :
    IsSound g bare combine (memoAfter g bare combine requests) :=
  List.foldlRecOn requests _ (isSound_nil g bare combine) fun _ h r _ =>
    (expandMemo_spec g bare combine local_ r.1 r.2 h).2

theorem expansion_eq (local_ : IsLocal combine) (depth : Nat) (slot : Slot) :
    expansion g bare combine depth slot = expand g bare combine depth slot :=
  (expandMemo_spec g bare combine local_ depth slot (isSound_nil g bare combine)).1

end Grammar

end GrammarInduction
