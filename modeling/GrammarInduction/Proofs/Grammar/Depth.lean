import GrammarInduction.Proofs.Grammar.Exhaustive
import GrammarInduction.Proofs.Grammar.Trees
import Mathlib.Algebra.Order.BigOperators.Group.List
import Mathlib.Algebra.Order.BigOperators.GroupWithZero.List

/-!
# Generation as deep as the grammar

In a grammar that is not recursive, the depth is a number of levels on which the start gives all
that it ever gives (`generation_settles`): on more levels the same templates are listed
(`generateAll_eq_of_chainsWithin`), no slot that could be expanded is left in them
(`Generates.over_undefined`), and there are no more of them than derivation trees
(`size_generateAll_le`).

All three hold of any slot from which no chain is longer than the number of levels, and are proved
by induction on the levels: the chains from the slots in its productions are shorter by one.
-/

namespace GrammarInduction.Grammar

variable {g : Grammar} {s : Slot} {t : Template} {levels depth : Nat}

/-! ## More levels -/

theorem expand_of_undefined {β : Type} {bare : Slot → β} {combine : (Slot → β) → List Template → β}
    (hs : g.isDefined s = false) (depth : Nat) : expand g bare combine depth s = bare s := by
  cases depth with
  | zero => rfl
  | succ depth => rw [expand, get?_eq_none_iff.2 hs]

theorem expand_eq_of_chainsWithin {β : Type} {bare : Slot → β}
    {combine : (Slot → β) → List Template → β} (local_ : IsLocal combine)
    (h : g.ChainsWithin levels s) (hdepth : levels ≤ depth) :
    expand g bare combine depth s = expand g bare combine levels s := by
  induction levels generalizing s depth with
  | zero => rw [expand_of_undefined h.isDefined_eq_false, expand]
  | succ levels ih =>
    obtain ⟨depth, rfl⟩ : ∃ d, depth = d + 1 :=
      Nat.exists_eq_add_of_le' (Nat.le_trans (Nat.le_add_left ..) hdepth)
    unfold expand
    cases hrule : g.rules.get? s with
    | none => rfl
    | some ps =>
      refine local_ _ _ _ fun p hp k hk => ?_
      exact ih (h.of_mem_references (mem_references g hrule hp hk)) (Nat.le_of_succ_le_succ hdepth)

/-- Nothing more is generated on more levels than there are slots on a chain. -/
theorem generateAll_eq_of_chainsWithin (h : g.ChainsWithin levels s) (hdepth : levels ≤ depth) :
    g.generateAll depth s = g.generateAll levels s := by
  rw [generateAll, generateAll, expansion_eq _ _ _ isLocal_fillAllEach,
    expansion_eq _ _ _ isLocal_fillAllEach, expand_eq_of_chainsWithin isLocal_fillAllEach h hdepth]

/-! ## Slots that are left -/

/-- On as many levels as there are slots on a chain all defined slots are expanded. -/
theorem Generates.over_undefined (h : g.Generates levels s t) (hs : g.ChainsWithin levels s) :
    t.Over (g.isDefined · = false) := by
  induction levels generalizing s t with
  | zero => exact h ▸ Template.over_ofSlot_iff.2 hs.isDefined_eq_false
  | succ levels ih =>
    cases hrule : g.rules.get? s with
    | none =>
      obtain rfl := (generates_of_no_rule hrule).1 h
      exact Template.over_ofSlot_iff.2 (get?_eq_none_iff.1 hrule)
    | some ps =>
      obtain ⟨p, hp, h⟩ := (generates_of_rule hrule).1 h
      refine h.over fun k hk t ht => ih ht (hs.of_mem_references ?_)
      exact mem_references g hrule hp (Template.mem_slots_iff.2 hk)

/-! ## How many there are -/

theorem length_choices {α : Type} (lists : List (List α)) :
    (SlotValues.choices lists).length = (lists.map List.length).prod := by
  induction lists with
  | nil => rfl
  | cons first rest ih =>
    simp [SlotValues.choices, List.length_flatMap, ih]

theorem length_fillEach (values : Slot → OrderedSet Template) (p : Template) :
    (fillEach values p).length = (p.slots.map fun s => (values s).size).prod := by
  rw [fillEach, List.length_map, length_choices, List.map_map]
  rfl

/-- There are no more templates than derivation trees. -/
theorem size_generateAll_le (h : g.ChainsWithin levels s) :
    (g.generateAll levels s).size ≤ g.treeCount levels s := by
  rw [generateAll, expansion_eq _ _ _ isLocal_fillAllEach]
  induction levels generalizing s with
  | zero =>
    rw [treeCount_of_undefined h.isDefined_eq_false]
    exact OrderedSet.size_insert_le ..
  | succ levels ih =>
    cases hs : g.isDefined s with
    | false =>
      rw [expand_of_undefined hs, treeCount_of_undefined hs]
      exact OrderedSet.size_insert_le ..
    | true =>
      rw [expand, get?_eq_some_productions hs, treeCount, if_pos hs]
      refine Nat.le_trans (OrderedSet.size_ofList_le _) ?_
      rw [List.length_flatMap]
      refine List.sum_le_sum fun p hp => ?_
      rw [length_fillEach]
      refine List.prod_map_le_prod_map₀ _ _ (fun _ _ => Nat.zero_le _) fun k hk => ?_
      exact ih (h.of_mem_references (mem_references_of_mem_productions hp hk))

/-! ## The depth of a grammar -/

/-- **The depth bounds generation.** If a grammar is not recursive and its start is defined, then
the start gives on more levels than the depth of the grammar what it gives on as many; no slot that
is defined is left in these templates, and there are no more of them than derivation trees, of which
the number of generations counts all that it can hold. -/
theorem generation_settles (hrec : g.isRecursive = false) (hstart : g.isDefined g.start = true) :
    ∃ n all, g.depth? = some n ∧ g.generateAll? g.start n = .ok all ∧
      (∀ depth, n ≤ depth → g.generateAll? g.start depth = .ok all) ∧
      (∀ t ∈ all.toList, ∀ s ∈ t.slots, g.isDefined s = false) ∧
      Finite (g.Tree g.start) ∧ all.size ≤ Nat.card (g.Tree g.start) ∧
      g.generations? = some (min (Nat.card (g.Tree g.start)) (2 ^ 64 - 1)) := by
  obtain ⟨order, horder⟩ := (isSome_dependencyOrder_iff g).1 hrec
  have hdepth := depth?_of_order horder (Nat.le_refl _)
  have hwithin := chainsWithin_depth hdepth
  obtain ⟨hfinite, hcard⟩ := card_tree_eq_treeCount hwithin
  refine ⟨_, _, hdepth, generateAll?_eq_ok hstart, fun depth hle => ?_, fun t ht => ?_, hfinite, ?_,
    generations?_eq_card hrec⟩
  · rw [generateAll?_eq_ok hstart, generateAll_eq_of_chainsWithin hwithin hle]
  · exact (generates_of_mem_generateAll ht).over_undefined hwithin
  · rw [hcard]
    exact size_generateAll_le hwithin

/-- Names with a title or without one, which are given to two people; one name is there twice. -/
def titledNames : Grammar where
  start := origin
  rules := (OrderedMap.empty.insert origin
      [⟨[.slot (.named "who"), .literal "meets", .slot (.named "who")]⟩]).insert
    (.named "who")
      [⟨[.slot (.named "title"), .literal "Ann"]⟩, ⟨[.literal "Bob"]⟩, ⟨[.literal "Bob"]⟩]

theorem generation_settles_titledNames :
    titledNames.isRecursive = false ∧ titledNames.isDefined titledNames.start = true ∧
      ∃ n all, titledNames.depth? = some n ∧
        titledNames.generateAll? titledNames.start n = .ok all ∧
        (∀ depth, n ≤ depth → titledNames.generateAll? titledNames.start depth = .ok all) ∧
        (∀ t ∈ all.toList, ∀ s ∈ t.slots, titledNames.isDefined s = false) ∧
        Finite (titledNames.Tree titledNames.start) ∧
        all.size ≤ Nat.card (titledNames.Tree titledNames.start) ∧
        titledNames.generations? =
          some (min (Nat.card (titledNames.Tree titledNames.start)) (2 ^ 64 - 1)) :=
  have hrec : titledNames.isRecursive = false := by decide
  have hstart : titledNames.isDefined titledNames.start = true := by decide
  ⟨hrec, hstart, generation_settles hrec hstart⟩

example : (titledNames.generateAll 2 origin).size = 4 ∧ titledNames.generations? = some 9 := by
  decide

end GrammarInduction.Grammar
