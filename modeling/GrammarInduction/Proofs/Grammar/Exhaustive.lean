import GrammarInduction.Proofs.Grammar.Generation
import GrammarInduction.Proofs.Outcome
import Mathlib.Data.List.Forall2

/-!
# Exhaustive generation

`generateAll?` lists, for a defined slot, the templates that the slot generates on so many levels and
nothing else: what `Generates` describes by plain recursion comes out of a recursion that looks up in
a memo and fills it on the way (`generation_exact`).

* `mapM_fillWith_choices`: a choice of values has one for each occurrence of a slot, so that filling a
  production cannot fail.
* `generates_of_expand`: what any way to combine productions by filling them gives is generated.
* `generates_of_mem_generateAll`: each listed template is generated as it stands, the numbers of its
  anonymous slots included. The converse holds up to these numbers (`contains_generateAll_iff`), since
  a set keeps one of several equal templates.
-/

namespace GrammarInduction.Grammar

variable {g : Grammar} {depth : Nat} {s : Slot} {p t : Template}

/-! ## Filling productions -/

theorem mem_choices_iff {α : Type} {lists : List (List α)} {tuple : List α} :
    tuple ∈ SlotValues.choices lists ↔ List.Forall₂ (· ∈ ·) tuple lists := by
  induction lists generalizing tuple with
  | nil => rw [List.forall₂_nil_right_iff, SlotValues.choices, List.mem_singleton]
  | cons list lists ih =>
    rw [List.forall₂_cons_right_iff]
    simp only [SlotValues.choices, List.mem_flatMap, List.mem_map, ih]
    constructor
    · rintro ⟨a, ha, rest, hrest, rfl⟩
      exact ⟨a, rest, ha, hrest, rfl⟩
    · rintro ⟨a, rest, ha, hrest, rfl⟩
      exact ⟨a, ha, rest, hrest, rfl⟩

theorem length_of_mem_choices {α : Type} {lists : List (List α)} {tuple : List α}
    (h : tuple ∈ SlotValues.choices lists) : tuple.length = lists.length :=
  (mem_choices_iff.1 h).length_eq

/-- A production is filled by each choice of values: none of them fails. -/
theorem mapM_fillWith_choices (values : Slot → OrderedSet Template) (p : Template) :
    (SlotValues.choices (p.slots.map fun s => (values s).toList)).mapM p.fillWith =
      .ok (fillEach values p) := by
  refine mapM_eq_ok fun tuple htuple => ?_
  have hlength : p.slots.length = tuple.length := by
    rw [length_of_mem_choices htuple, List.length_map]
  rw [Template.fillWith, if_pos hlength]

/-! ## Listed templates -/

theorem mem_bare_iff :
    t ∈ ((OrderedSet.empty : OrderedSet Template).insert (.ofSlot s)).toList ↔ t = .ofSlot s := by
  rw [OrderedSet.toList_insert_of_not_contains (OrderedSet.contains_empty _)]
  exact List.mem_singleton

/-- If what productions are combined to comes out of filling them with what their slots give, then all
that an expansion gives is generated. -/
theorem generates_of_expand {β : Type} (given : β → Template → Prop) {bare : Slot → β}
    {combine : (Slot → β) → List Template → β} (hbare : ∀ s t, given (bare s) t → t = .ofSlot s)
    (hcombine : ∀ v ps t, given (combine v ps) t →
      ∃ p ∈ ps, FilledFrom (fun s t => given (v s) t) p.tokens t.tokens)
    (h : given (g.expand bare combine depth s) t) : g.Generates depth s t := by
  induction depth generalizing s t with
  | zero => exact hbare s t h
  | succ depth ih =>
    rw [expand] at h
    cases hrule : g.rules.get? s with
    | none =>
      rw [hrule] at h
      exact (generates_of_no_rule hrule).2 (hbare s t h)
    | some ps =>
      rw [hrule] at h
      obtain ⟨p, hp, hfilled⟩ := hcombine _ ps t h
      exact (generates_of_rule hrule).2 ⟨p, hp, hfilled.mono fun _ _ => ih⟩

theorem generates_of_mem_generateAll (h : t ∈ (g.generateAll depth s).toList) :
    g.Generates depth s t := by
  rw [generateAll, expansion_eq _ _ _ isLocal_fillAllEach] at h
  refine generates_of_expand (fun (all : OrderedSet Template) t => t ∈ all.toList)
    (fun _ _ => mem_bare_iff.1) (fun sets ps t ht => ?_) h
  obtain ⟨p, hp, hfilled⟩ := List.mem_flatMap.1 (OrderedSet.mem_of_mem_ofList ht)
  exact ⟨p, hp, mem_fillEach_iff.1 hfilled⟩

/-! ## The listing -/

/-- The templates that a slot gives within a number of levels, listed with what a memo holds
already, and the memo after. -/
def generateAllWith (g : Grammar) :
    Nat → Memo (OrderedSet Template) → Slot → OrderedSet Template × Memo (OrderedSet Template) :=
  g.expandMemo (fun s => OrderedSet.empty.insert (.ofSlot s)) fillAllEach

/-- The memo after slots were listed one after the other, each on a number of levels. -/
def memoAfterListing (g : Grammar) : List (Nat × Slot) → Memo (OrderedSet Template) :=
  g.memoAfter (fun s => OrderedSet.empty.insert (.ofSlot s)) fillAllEach

theorem generateAllWith_eq (earlier : List (Nat × Slot)) (depth : Nat) (s : Slot) :
    (g.generateAllWith depth (g.memoAfterListing earlier) s).1 = g.generateAll depth s := by
  have hsound := isSound_memoAfter g (fun s => OrderedSet.empty.insert (Template.ofSlot s))
    fillAllEach isLocal_fillAllEach earlier
  rw [generateAll, expansion_eq _ _ _ isLocal_fillAllEach]
  exact (expandMemo_spec g _ _ isLocal_fillAllEach depth s hsound).1

/-- **Exhaustive generation is exact.** For a defined slot the templates are listed that it generates
on so many levels, and nothing else; and they are the same whatever the memo holds from slots that
were listed before. -/
theorem generation_exact (depth : Nat) (hs : g.isDefined s = true) :
    ∃ all, g.generateAll? s depth = .ok all ∧
      (∀ t, all.contains t = true ↔ ∃ t', g.Generates depth s t' ∧ (t' == t) = true) ∧
      (∀ t ∈ all.toList, g.Generates depth s t) ∧
      ∀ earlier, (g.generateAllWith depth (g.memoAfterListing earlier) s).1 = all :=
  ⟨_, generateAll?_eq_ok hs, fun _ => contains_generateAll_iff,
    fun _ => generates_of_mem_generateAll, fun earlier => generateAllWith_eq earlier depth s⟩

/-- Nested lists, of which some are never closed and some have no end. -/
def nested : Grammar where
  start := origin
  rules := ((OrderedMap.empty.insert origin
      [⟨[.slot (.named "item"), .slot (.named "item")]⟩, ⟨[.slot (.named "end")]⟩]).insert
    (.named "item") [⟨[.literal "x"]⟩, ⟨[.literal "(", .slot origin, .slot (.named "close")]⟩]).insert
      (.named "end") []

theorem generation_exact_nested :
    nested.isDefined origin = true ∧ ∃ all, nested.generateAll? origin 3 = .ok all ∧
      (∀ t, all.contains t = true ↔ ∃ t', nested.Generates 3 origin t' ∧ (t' == t) = true) ∧
      (∀ t ∈ all.toList, nested.Generates 3 origin t) ∧
      ∀ earlier, (nested.generateAllWith 3 (nested.memoAfterListing earlier) origin).1 = all :=
  ⟨by decide, generation_exact 3 (by decide)⟩

end GrammarInduction.Grammar
