import GrammarInduction.Proofs.Grammar.ReadOff
import GrammarInduction.Proofs.SlotValues.Closed
import GrammarInduction.Proofs.SlotValues.Lossless

/-!
# Slots that a grammar leaves undefined

A grammar read off slot values has a rule for each slot that has values and is not replaced. So if
the slot values are closed and the root mentions no replaced slot, no slot that has values is left
undefined (`not_contains_of_mem_undefinedSlots`). Merged slot values are closed exactly if no slot is
dissolved that is mentioned within a longer value (`closed_of_merge`), and that can fail
(`merge_leaves_undefined`).
-/

namespace GrammarInduction

namespace Grammar

open SlotValues

variable {root t : Template} {v : SlotValues} {s slot k : Slot} {ps productions : List Template}
  {rules : OrderedMap Slot (List Template)}

theorem isDefined_withOrigin_iff : (withOrigin productions rules).isDefined s = true ↔
    (∃ ps, rules.get? s = some ps) ∨ s = origin := by
  rw [isDefined, OrderedMap.contains_eq_isSome, get?_withOrigin]
  cases rules.get? s with
  | none => by_cases hs : s = origin <;> simp [hs]
  | some ps => simp

theorem mem_undefinedSlots_iff {g : Grammar} : k ∈ g.undefinedSlots ↔ g.isDefined k = false ∧
    ∃ s ps, g.rules.get? s = some ps ∧ ∃ t ∈ ps, k ∈ t.slots := by
  rw [undefinedSlots, OrderedSet.mem_ofList, List.mem_filter, Bool.not_eq_true', and_comm]
  refine and_congr_right fun _ => ?_
  simp only [List.mem_flatMap, OrderedMap.values, List.mem_map]
  constructor
  · rintro ⟨ps, ⟨e, he, rfl⟩, t, ht, hk⟩
    exact ⟨e.1, e.2, OrderedMap.get?_eq_some_iff.2 he, t, ht, hk⟩
  · rintro ⟨s, ps, hps, t, ht, hk⟩
    exact ⟨ps, ⟨(s, ps), OrderedMap.get?_eq_some_iff.1 hps, rfl⟩, t, ht, hk⟩

/-- The rules read off mention no replaced slots. -/
theorem free_of_mem_valueRules (h : v.Closed) (hps : (valueRules v).get? s = some ps) (ht : t ∈ ps)
    (hk : k ∈ t.slots) : v.Free k := by
  cases hs : v.isReplaced s with
  | true => simp [get?_valueRules_of_replaced hs] at hps
  | false =>
    rw [get?_valueRules_of_not_replaced hs] at hps
    split at hps
    · rw [← Option.some.inj hps] at ht
      exact h s (isReplaced_eq_false_iff.1 hs) t (mem_properValues.1 ht).1 k hk
    · cases hps

theorem get?_valueRules_of_free (hkey : v.contains k = true) (hk : v.Free k) :
    ∃ ps, (valueRules v).get? k = some ps :=
  ⟨_, by rw [get?_valueRules_of_not_replaced (isReplaced_eq_false_iff.2 hk), if_pos hkey]⟩

theorem isDefined_ofValues (hkey : v.contains k = true) (hk : v.Free k) :
    (ofValues root v).isDefined (calledBy root k) = true := by
  obtain ⟨ps, hps⟩ := get?_valueRules_of_free hkey hk
  cases hsingle : root.single? with
  | none =>
    rw [calledBy_of_none hsingle, ofValues_of_none hsingle]
    exact isDefined_withOrigin_iff.2 (.inl ⟨ps, hps⟩)
  | some slot =>
    rw [calledBy_of_some hsingle, ofValues_of_some hsingle, isDefined_withOrigin_iff]
    split
    · exact .inr rfl
    next hne =>
      refine .inl ⟨ps.map (.rename (rootNames root)), ?_⟩
      rw [get?_others, if_neg (Ne.symm hne), hps]
      rfl

/-- **A grammar read off closed slot values leaves no slot with values undefined.** -/
theorem not_contains_of_mem_undefinedSlots (h : v.Closed) (hroot : ∀ k ∈ root.slots, v.Free k)
    (hundefined : k ∈ (ofValues root v).undefinedSlots) : v.contains k = false := by
  rw [Bool.eq_false_iff]
  intro hkey
  obtain ⟨hundefined, s, ps, hps, t, ht, hk⟩ := mem_undefinedSlots_iff.1 hundefined
  have hdefined (k' : Slot) (hk' : v.Free k') (hcalled : calledBy root k' = k) :
      (ofValues root v).isDefined k = true := by
    by_cases hsame : k' = k
    · rw [← hcalled]
      exact isDefined_ofValues (hsame ▸ hkey) hk'
    · cases hsingle : root.single? with
      | none => exact absurd (calledBy_of_none hsingle k' ▸ hcalled) hsame
      | some slot =>
        rw [calledBy_of_some hsingle] at hcalled
        split at hcalled
        · rw [ofValues_of_some hsingle, isDefined_withOrigin_iff]
          exact .inr hcalled.symm
        · exact absurd hcalled hsame
  refine absurd (?_ : (ofValues root v).isDefined k = true) (by simp [hundefined])
  rcases get?_ofValues_cases hps with ⟨-, rfl, hnone⟩ | ⟨s', qs, -, hqs, rfl⟩
  · obtain rfl := List.mem_singleton.1 ht
    refine hdefined k (hroot k hk) ?_
    cases hsingle : t.single? with
    | none => exact calledBy_of_none hsingle k
    | some slot =>
      obtain ⟨qs, hqs⟩ := get?_valueRules_of_free hkey (hroot k hk)
      rw [Template.eq_ofSlot_of_single? hsingle, Template.slots_ofSlot, List.mem_singleton] at hk
      rw [hk, hnone slot hsingle] at hqs
      cases hqs
  · obtain ⟨t', ht', rfl⟩ := List.mem_map.1 ht
    obtain ⟨k', hk', hcalled⟩ := Template.mem_slots_rename.1 hk
    exact hdefined k' (free_of_mem_valueRules h hqs ht' hk') hcalled

end Grammar

namespace SlotValues

open Grammar

variable {v m : SlotValues} {s : Slot}

theorem sets_nonReplaced_of_free (hs : v.Free s) : v.nonReplaced.sets s = v.sets s := by
  rw [sets, getD, get?, nonReplaced, OrderedMap.get?_filterKeys, isReplaced_eq_false_iff.2 hs]
  rfl

theorem free_of_mem_nonReplaced {t : Template} (ht : t ∈ v.nonReplaced.sets s) : v.Free s := by
  cases hs : v.isReplaced s with
  | false => exact isReplaced_eq_false_iff.1 hs
  | true =>
    rw [sets, getD, get?, nonReplaced, OrderedMap.get?_filterKeys, hs] at ht
    cases ht

theorem mem_slots_nonReplaced (hkey : s ∈ v.slots) (hs : v.Free s) : s ∈ v.nonReplaced.slots := by
  obtain ⟨e, he, rfl⟩ := List.mem_map.1 hkey
  exact List.mem_map_of_mem (List.mem_filter.2 ⟨he, by simp [isReplaced_eq_false_iff.2 hs]⟩)

/-- **When merged slot values are closed.** Let all slots be named. What is united is closed. What
comes out mentions a replaced slot only within a longer value, and only if the slot has been
dissolved; it is closed exactly if no slot mentioned within a longer value is dissolved, and
certainly if each value is literal or a single slot. If it is closed, the slots mentioned in what is
not replaced have values there, and a grammar read off leaves none of them undefined. -/
theorem closed_of_merge {threshold : Float} (hnamed : v.Over Named)
    (hm : v.merge threshold = .ok m) :
    (∃ u, v.united (similar threshold) = .ok u ∧ u.Closed ∧
      (∀ s, m.Free s → ∀ t ∈ m.sets s, ∀ k ∈ t.slots, u.Free k ∧ (m.Free k ∨ t ≠ .ofSlot k)) ∧
      (m.Closed ↔ ∀ k, u.MentionedWithin k → m.Free k)) ∧
    (v.Flat → m.Closed) ∧
    (m.Closed →
      (∀ k ∈ v.slots, ∀ s, ∀ t ∈ m.nonReplaced.sets s, k ∈ t.slots → k ∈ m.nonReplaced.slots) ∧
      ∀ root : Template, (∀ k ∈ root.slots, m.Free k) →
        ∀ k ∈ (ofValues root m).undefinedSlots, k ∉ v.slots) := by
  obtain ⟨u, hu, hclosed, hmentioned, hwithin⟩ := exists_united_closed hnamed hm
  have hiff : m.Closed ↔ ∀ k, u.MentionedWithin k → m.Free k := by
    rw [closed_iff hnamed hm]
    exact forall_congr' fun k => by rw [hwithin k]
  refine ⟨⟨u, hu, hclosed, hmentioned, hiff⟩, closed_of_flat hnamed hm, fun h => ⟨?_, ?_⟩⟩
  · intro k hk s t ht hkt
    have hs := free_of_mem_nonReplaced ht
    rw [sets_nonReplaced_of_free hs] at ht
    exact mem_slots_nonReplaced (mem_slots_of_mergeBy hm hk) (h s hs t ht k hkt)
  · intro root hroot k hk hkey
    have hcontains := OrderedMap.contains_iff_mem_keys.2 (mem_slots_of_mergeBy hm hkey)
    exact absurd (not_contains_of_mem_undefinedSlots h hroot hk) (by
      rw [Bool.not_eq_false]
      exact hcontains)

/-- A slot with the same values as another one is replaced, and nothing mentions it any more. -/
theorem closed_of_merge_of_equalSlots :
    equalSlots.Over Named ∧ ∃ m, equalSlots.merge 1.0 = .ok m ∧
      m.isReplaced (.named "C") = true ∧ m.Closed ∧
      ∀ k ∈ (ofValues (.ofSlot (.named "A")) m).undefinedSlots, k ∉ equalSlots.slots := by
  have hflat : equalSlots.Flat := flat_of_slots (by decide)
  obtain ⟨m, hm, hreplaced⟩ : ∃ m, equalSlots.merge 1.0 = .ok m ∧
      (m.isReplaced (.named "C"), m.replacement? (.named "A")) = (true, none) := by
    apply exists_of_toOption
    rw [merge, mergeBy_of_sorted (by decide)]
    decide +kernel
  obtain ⟨hreplaced, hfree⟩ := Prod.mk.inj hreplaced
  obtain ⟨-, hclosed, hdefined⟩ := closed_of_merge named_equalSlots hm
  refine ⟨named_equalSlots, m, hm, hreplaced, hclosed hflat, (hdefined (hclosed hflat)).2 _ fun k hk => ?_⟩
  rwa [List.mem_singleton.1 hk]

/-- Slots of which one is a value of just one other slot, and is mentioned within a value of a
third. -/
def nestedUse : SlotValues :=
  ofPairs [(.named "A", .ofSlot (.named "B")), (.named "A", ⟨[.literal "q"]⟩),
    (.named "B", ⟨[.literal "b1"]⟩), (.named "B", ⟨[.literal "b2"]⟩),
    (.named "C", ⟨[.literal "x", .slot (.named "B")]⟩), (.named "C", ⟨[.literal "c"]⟩)]

/-- **Merging can leave a replaced slot mentioned**, and undefined in the grammar that is read
off. -/
theorem merge_leaves_undefined :
    nestedUse.Over Named ∧ nestedUse.replacements = .empty ∧
      .named "B" ∈ nestedUse.slots ∧
      ∃ m, nestedUse.merge 1.0 = .ok m ∧ ¬ m.Closed ∧ .named "B" ∉ m.nonReplaced.slots ∧
        .named "B" ∈ (ofValues (.ofSlot (.named "C")) m).undefinedSlots := by
  refine ⟨over_of_entries rfl ?_, rfl, by decide, ?_⟩
  · unfold SetOver Template.Over
    decide
  obtain ⟨m, hm, hfacts⟩ : ∃ m, nestedUse.merge 1.0 = .ok m ∧
      (m.replacement? (.named "C"), m.isReplaced (.named "B"), m.sets (.named "C"),
        m.nonReplaced.slots, (ofValues (.ofSlot (.named "C")) m).undefinedSlots) =
      (none, true, [⟨[.literal "x", .slot (.named "B")]⟩, ⟨[.literal "c"]⟩],
        [.named "A", .named "C"], [.named "B"]) := by
    apply exists_of_toOption
    rw [merge, mergeBy_of_sorted (by decide)]
    decide +kernel
  simp only [Prod.mk.injEq] at hfacts
  obtain ⟨hfree, hreplaced, hsets, hslots, hundefined⟩ := hfacts
  refine ⟨m, hm, fun hclosed => ?_, by simp [hslots], by simp [hundefined]⟩
  have hvalue : ⟨[.literal "x", .slot (.named "B")]⟩ ∈ m.sets (.named "C") :=
    hsets ▸ List.mem_cons_self
  have hB : m.Free (.named "B") := hclosed _ hfree _ hvalue _ (List.mem_singleton_self _)
  rw [isReplaced_eq_false_iff.2 hB] at hreplaced
  cases hreplaced

end SlotValues

end GrammarInduction
