import GrammarInduction.Grammar.Analysis
import GrammarInduction.Grammar.OfValues
import GrammarInduction.Proofs.SlotValues.Keeping

/-!
# Grammars read off slot values

A root that is a single slot goes by the name of the start in the grammar read off, and every other
slot by its own name (`calledBy`).

* `get?_ofValues_calledBy` and `get?_ofValues_cases` say which rules the grammar has: each slot with
  values has its rule under the name that it goes by, unless the rule is one of the start already, and
  there is no other rule but for that of the root template.
* `derives_of_root`: if the name of the start is free, the start derives whatever the root template
  derives by the values, under the names that slots go by.
* `undefinedSlots_ofValues`: all slots that are referred to are defined, provided that the slots of
  the root and of the values have values themselves.
-/

namespace GrammarInduction.Grammar

open SlotValues

variable {root t : Template} {v : SlotValues} {s slot : Slot} {ps : List Template}

/-- The values of a slot without the slot itself. -/
def properValues (v : SlotValues) (s : Slot) : List Template :=
  (v.sets s).filter fun t => !(t.single? == some s)

theorem mem_properValues : t ∈ properValues v s ↔ t ∈ v.sets s ∧ t ≠ .ofSlot s := by
  have hsingle : t.single? = some s ↔ t = .ofSlot s :=
    ⟨Template.eq_ofSlot_of_single?, fun h => h ▸ rfl⟩
  simp [properValues, hsingle]

theorem get?_valueRules_of_replaced (hs : v.isReplaced s = true) : (valueRules v).get? s = none := by
  rw [valueRules, OrderedMap.get?_mapValues, nonReplaced, OrderedMap.get?_filterKeys, hs]
  rfl

theorem get?_valueRules_of_not_replaced (hs : v.isReplaced s = false) :
    (valueRules v).get? s = if v.contains s then some (properValues v s) else none := by
  rw [valueRules, OrderedMap.get?_mapValues, nonReplaced, OrderedMap.get?_filterKeys, hs]
  cases hget : v.values.get? s with
  | none =>
    have hkey : v.contains s = false := by
      rw [SlotValues.contains, OrderedMap.contains_eq_isSome, hget]
      rfl
    simp [hkey]
  | some templates =>
    have hkey : v.contains s = true := by
      rw [SlotValues.contains, OrderedMap.contains_eq_isSome, hget]
      rfl
    have hsets : v.sets s = templates.toList := by
      rw [sets, getD, SlotValues.get?, hget]
      rfl
    simp [hkey, properValues, hsets]

theorem get?_valueRules (hfresh : v.replacements = .empty) (s : Slot) :
    (valueRules v).get? s = if v.contains s then some (properValues v s) else none :=
  get?_valueRules_of_not_replaced (by simp [isReplaced, hfresh])

theorem get?_valueRules_of_contains (hfresh : v.replacements = .empty) (hs : v.contains s = true) :
    (valueRules v).get? s = some (properValues v s) := by
  rw [get?_valueRules hfresh, if_pos hs]

theorem get?_valueRules_of_not_contains (hfresh : v.replacements = .empty)
    (hs : v.contains s = false) : (valueRules v).get? s = none := by
  rw [get?_valueRules hfresh, hs, if_neg Bool.false_ne_true]

theorem eq_properValues_of_get? (hfresh : v.replacements = .empty)
    (h : (valueRules v).get? s = some ps) : ps = properValues v s := by
  rw [get?_valueRules hfresh] at h
  split at h
  · exact (Option.some.inj h).symm
  · cases h

theorem get?_withOrigin (productions : List Template) (rules : OrderedMap Slot (List Template))
    (s : Slot) : (withOrigin productions rules).rules.get? s =
      (rules.get? s).or (if s = origin then some productions else none) := by
  rw [withOrigin, OrderedMap.get?_insertAll, OrderedMap.get?_insert]
  by_cases hs : s = origin <;> simp [hs, Ne.symm]

/-! ## Names in the grammar -/

/-- What slots are renamed to in the grammar of a root template: a root that is a single slot goes
by the name of the start. -/
def rootNames (root : Template) : OrderedMap Slot Slot :=
  match root.single? with
  | none => .empty
  | some slot => OrderedMap.empty.insert slot origin

/-- What a slot is called in the grammar of a root template. -/
def calledBy (root : Template) (s : Slot) : Slot := ((rootNames root).get? s).getD s

theorem rootNames_of_none (h : root.single? = none) : rootNames root = .empty := by
  simp [rootNames, h]

theorem rootNames_of_some (h : root.single? = some slot) :
    rootNames root = OrderedMap.empty.insert slot origin := by
  simp [rootNames, h]

theorem calledBy_of_none (h : root.single? = none) (s : Slot) : calledBy root s = s := by
  rw [calledBy, rootNames_of_none h]
  rfl

theorem calledBy_of_some (h : root.single? = some slot) (s : Slot) :
    calledBy root s = if slot = s then origin else s := by
  rw [calledBy, rootNames_of_some h, OrderedMap.get?_insert]
  by_cases hs : slot = s <;> simp [hs]

theorem rename_rootNames_of_none (h : root.single? = none) :
    Template.rename (rootNames root) = id := by
  funext t
  rw [rootNames_of_none h, Template.rename_empty, id]

/-! ## Rules of the grammar -/

/-- The grammar of a root that is more than a slot. -/
theorem ofValues_of_none (h : root.single? = none) :
    ofValues root v = withOrigin [root] (valueRules v) := by
  rw [ofValues, h]

/-- The rules of a grammar whose root is a slot are those of the slot, of which the slot is not one
any more, and those of the others. -/
theorem ofValues_of_some (h : root.single? = some slot) :
    ofValues root v = withOrigin
      (((valueRules v).get? slot).elim [root] (·.map (.rename (rootNames root))))
      (((valueRules v).erase slot).mapValues fun _ ps => ps.map (.rename (rootNames root))) := by
  rw [ofValues, h, rootNames_of_some h]
  dsimp only
  cases (valueRules v).get? slot <;> rfl

theorem get?_others (names : OrderedMap Slot Slot) (slot s : Slot) :
    (((valueRules v).erase slot).mapValues fun _ ps => ps.map (Template.rename names)).get? s =
      if s = slot then none
      else ((valueRules v).get? s).map (List.map (Template.rename names)) := by
  rw [OrderedMap.get?_mapValues, OrderedMap.erase, OrderedMap.get?_filterKeys]
  by_cases hs : s = slot <;> simp [hs]

/-- The rule of a slot is there under the name that the slot goes by, unless the name of the start
is taken by a slot that is not the root. -/
theorem get?_ofValues_calledBy (hrule : (valueRules v).get? s = some ps)
    (hfree : root = .ofSlot origin ∨ (valueRules v).get? origin = none) :
    (ofValues root v).rules.get? (calledBy root s) = some (ps.map (.rename (rootNames root))) := by
  cases hsingle : root.single? with
  | none =>
    rw [calledBy_of_none hsingle, ofValues_of_none hsingle, get?_withOrigin, hrule, Option.some_or,
      rename_rootNames_of_none hsingle, List.map_id]
  | some slot =>
    rw [calledBy_of_some hsingle, ofValues_of_some hsingle, get?_withOrigin, get?_others]
    by_cases hs : slot = s
    · -- the slot of the root goes by the name of the start, which has no rule of its own
      subst hs
      have hother : (if origin = slot then none else ((valueRules v).get? origin).map
          (List.map (Template.rename (rootNames root)))) = none := by
        rcases hfree with rfl | horigin
        · exact if_pos (Option.some.inj hsingle)
        · rw [horigin, Option.map_none, ite_self]
      rw [if_pos rfl, hother, Option.none_or, if_pos rfl, hrule, Option.elim_some]
    · rw [if_neg hs, if_neg (Ne.symm hs), hrule, Option.map_some, Option.some_or]

/-- **Which rules there are**: those of slots under the names that they go by, and the root template
for the start, if it is not a slot with a rule. -/
theorem get?_ofValues_cases (h : (ofValues root v).rules.get? s = some ps) :
    (s = origin ∧ ps = [root] ∧
        ∀ slot, root.single? = some slot → (valueRules v).get? slot = none) ∨
      ∃ k qs, calledBy root k = s ∧ (valueRules v).get? k = some qs ∧
        ps = qs.map (.rename (rootNames root)) := by
  cases hsingle : root.single? with
  | none =>
    rw [ofValues_of_none hsingle, get?_withOrigin, Option.or_eq_some_iff] at h
    rcases h with hrule | ⟨-, h⟩
    · refine .inr ⟨s, ps, calledBy_of_none hsingle s, hrule, ?_⟩
      rw [rename_rootNames_of_none hsingle, List.map_id]
    · obtain ⟨hs, heq⟩ := Option.ite_none_right_eq_some.1 h
      exact .inl ⟨hs, (Option.some.inj heq).symm, nofun⟩
  | some slot =>
    have hcalled := calledBy_of_some hsingle
    rw [ofValues_of_some hsingle, get?_withOrigin, get?_others, Option.or_eq_some_iff] at h
    rcases h with h | ⟨-, h⟩
    · obtain ⟨hs, h⟩ := Option.ite_none_left_eq_some.1 h
      obtain ⟨qs, hrule, rfl⟩ := Option.map_eq_some_iff.1 h
      exact .inr ⟨s, qs, by rw [hcalled, if_neg (Ne.symm hs)], hrule, rfl⟩
    · obtain ⟨rfl, heq⟩ := Option.ite_none_right_eq_some.1 h
      obtain rfl := Option.some.inj heq
      cases hrule : (valueRules v).get? slot with
      | none => exact .inl ⟨rfl, rfl, fun k hk => Option.some.inj hk ▸ hrule⟩
      | some qs => exact .inr ⟨slot, qs, by rw [hcalled, if_pos rfl], hrule, rfl⟩

theorem contains_of_mem_sets (h : t ∈ v.sets s) : v.contains s = true :=
  OrderedMap.contains_iff_mem_keys.2 (mem_slots_of_sets_ne_nil (List.ne_nil_of_mem h))

theorem start_ofValues (root : Template) (v : SlotValues) : (ofValues root v).start = origin := by
  cases hsingle : root.single? with
  | none => rw [ofValues_of_none hsingle, withOrigin]
  | some slot => rw [ofValues_of_some hsingle, withOrigin]

theorem undefinedSlots_eq_nil {g : Grammar}
    (h : ∀ s ps, g.rules.get? s = some ps → ∀ t ∈ ps, ∀ k ∈ t.slots, g.isDefined k = true) :
    g.undefinedSlots = [] := by
  unfold undefinedSlots
  apply List.eq_nil_iff_forall_not_mem.2
  intro k hk
  obtain ⟨hk, hundefined⟩ := List.mem_filter.1 (OrderedSet.mem_of_mem_ofList hk)
  obtain ⟨ps, hps, hk⟩ := List.mem_flatMap.1 hk
  obtain ⟨⟨s, ps⟩, he, rfl⟩ := List.mem_map.1 hps
  obtain ⟨t, ht, hk⟩ := List.mem_flatMap.1 hk
  simp [h s ps (OrderedMap.get?_eq_some_iff.2 he) t ht k hk] at hundefined

/-! ## From the root to the start -/

section Derivations

variable (hfresh : v.replacements = .empty)
  (hfree : root = .ofSlot origin ∨ v.contains origin = false)

include hfresh hfree

/-- The values of a slot are productions under the name that the slot goes by. -/
theorem rename_mem_productions (ht : t ∈ properValues v s) :
    t.rename (rootNames root) ∈ (ofValues root v).productions (calledBy root s) := by
  have hkey : v.contains s = true := contains_of_mem_sets (mem_properValues.1 ht).1
  have hrule := get?_ofValues_calledBy (get?_valueRules_of_contains hfresh hkey)
    (hfree.imp_right (get?_valueRules_of_not_contains hfresh))
  rw [productions_of_get? hrule]
  exact List.mem_map_of_mem ht

/-- The start derives the root template, with its slots as they are called. -/
theorem derives_rename_root : Derives (ofValues root v).productions
    [.slot (ofValues root v).start] (root.rename (rootNames root)).tokens := by
  rw [start_ofValues]
  cases hsingle : root.single? with
  | none =>
    have horigin : v.contains origin = false := hfree.resolve_left fun h => by simp [h] at hsingle
    have hstart : (ofValues root v).rules.get? origin = some [root] := by
      rw [ofValues_of_none hsingle, get?_withOrigin, get?_valueRules_of_not_contains hfresh horigin,
        Option.none_or, if_pos rfl]
    rw [rename_rootNames_of_none hsingle]
    exact derives_of_mem (productions_of_get? hstart ▸ List.mem_singleton_self root)
  | some slot =>
    have hcalled : calledBy root slot = origin := by
      rw [calledBy_of_some hsingle, if_pos rfl]
    have hrenamed : (root.rename (rootNames root)).tokens = [.slot (calledBy root slot)] := by
      rw [Template.eq_ofSlot_of_single? hsingle]
      rfl
    rw [hrenamed, hcalled]
    exact .refl _ _

/-- **A grammar read off derives** what its root template derives by the values, under the names that
slots go by. -/
theorem derives_of_root {x : List Token} (h : Derives v.sets root.tokens x) :
    Derives (ofValues root v).productions [.slot (ofValues root v).start]
      (x.map (Template.renameToken (rootNames root))) := by
  refine (derives_rename_root hfresh hfree).trans (h.map fun s u hu => ?_)
  by_cases hself : u = .ofSlot s
  · subst hself
    exact .refl _ _
  · exact derives_of_mem (rename_mem_productions hfresh hfree (mem_properValues.2 ⟨hu, hself⟩))

theorem derives_ofValues (ht : t.hasSlots = false) (h : Derives v.sets root.tokens t.tokens) :
    Derives (ofValues root v).productions [.slot (ofValues root v).start] t.tokens := by
  rw [← Template.rename_of_not_hasSlots ht (rootNames root)]
  exact derives_of_root hfresh hfree h

end Derivations

/-! ## Definedness -/

/-- **All slots of a grammar read off are defined** if all slots of the root template and of the
values have values. -/
theorem undefinedSlots_ofValues (hfresh : v.replacements = .empty)
    (horigin : v.contains origin = false) (hroot : ∀ slot ∈ root.slots, v.contains slot = true)
    (hvalues : ∀ s, ∀ t ∈ v.sets s, ∀ k ∈ t.slots, v.contains k = true) :
    (ofValues root v).undefinedSlots = [] := by
  have hdefined {k : Slot} (hk : v.contains k = true) :
      (ofValues root v).isDefined (calledBy root k) = true := by
    rw [isDefined, OrderedMap.contains_eq_isSome,
      get?_ofValues_calledBy (get?_valueRules_of_contains hfresh hk)
        (.inr (get?_valueRules_of_not_contains hfresh horigin))]
    rfl
  apply undefinedSlots_eq_nil
  intro s ps hps t ht k hk
  rcases get?_ofValues_cases hps with ⟨-, rfl, hnone⟩ | ⟨s', qs, -, hrule, rfl⟩
  · obtain rfl := List.mem_singleton.1 ht
    have hsingle : t.single? = none := by
      -- a slot that is the root has values and so a rule
      refine Option.eq_none_iff_forall_ne_some.2 fun slot hslot => ?_
      have hkey : v.contains slot = true := by
        apply hroot
        rw [Template.eq_ofSlot_of_single? hslot]
        exact List.mem_singleton_self slot
      have hrule := get?_valueRules_of_contains hfresh hkey
      rw [hnone slot hslot] at hrule
      cases hrule
    rw [← calledBy_of_none hsingle k]
    exact hdefined (hroot k hk)
  · obtain ⟨t', ht', rfl⟩ := List.mem_map.1 ht
    obtain ⟨k', hk', rfl⟩ := Template.mem_slots_rename.1 hk
    obtain rfl := eq_properValues_of_get? hfresh hrule
    exact hdefined (hvalues s' t' (mem_properValues.1 ht').1 k' hk')

end GrammarInduction.Grammar
