import GrammarInduction.Proofs.SlotValues.Turn

/-!
# The values that remain

What a slot gives up in its turn is dropped for a reason, and what remains comes from the values
that the slot has gathered.

* `dropProvided_induct`: values are dropped because slots among the values have them too.
* `dropCovered_induct`: slots are dropped because the values that are left provide for them.
* `remaining_induct`: what holds of the values that remain holds of all values gathered, if it
  passes between a slot and its values.
* `mem_of_mem_remaining`: the values that remain are values gathered, with replacements followed.
-/

namespace GrammarInduction

namespace SlotValues

variable {rank : Slot → Nat} {v all : SlotValues} {slot target s k : Slot} {later : List Slot}
  {own templates : OrderedSet Template} {t : Template} {w : Work} {Q : Template → Prop}

/-! ## Dropping what later slots provide -/

theorem mem_dropProvided_or (all : SlotValues) (later : List Slot) (ht : t ∈ own.toList) :
    t ∈ (dropProvided all later own).toList ∨
      ∃ k, .ofSlot k ∈ own.toList ∧ (all.getD k).contains t = true := by
  by_cases hkept : ∀ k ∈ slotMembers own, k ∈ later → (all.getD k).contains t = false
  · exact .inl (mem_dropProvided_iff.2 ⟨ht, hkept⟩)
  · simp only [Classical.not_forall, Bool.not_eq_false] at hkept
    obtain ⟨k, hk, -, hc⟩ := hkept
    exact .inr ⟨k, mem_slotMembers.1 hk, hc⟩

/-- What holds of the values that are left when values are dropped because later slots provide them,
and passes from a slot to its values, holds of all values. -/
theorem dropProvided_induct (later : List Slot) (hall : all.Over Named) (hown : SetOver Named own)
    (hsets : ∀ s k, .ofSlot k ∈ all.sets s → rank k < rank s)
    (hlt : ∀ k, .ofSlot k ∈ own.toList → rank k < rank slot)
    (hvalue : ∀ k, .ofSlot k ∈ own.toList → Q (.ofSlot k) → ∀ t ∈ all.sets k, Q t)
    (hleft : ∀ t ∈ (dropProvided all later own).toList, Q t) : ∀ t ∈ own.toList, Q t := by
  have hmem {k : Slot} {t : Template} (ht : t ∈ own.toList) (hc : (all.getD k).contains t = true) :
      t ∈ all.sets k := mem_of_contains_of_named (hall.values k) (hown t ht) hc
  -- A slot that is dropped is a value of a slot of greater rank.
  have hslots : ∀ n k, rank slot - rank k = n → .ofSlot k ∈ own.toList → Q (.ofSlot k) := by
    intro n
    induction n using Nat.strongRecOn with
    | ind n ih =>
      intro k hn hk
      rcases mem_dropProvided_or all later hk with hk' | ⟨k', hk', hc⟩
      · exact hleft _ hk'
      · have hlt' := hsets k' k (hmem hk hc)
        have := hlt k hk
        exact hvalue k' hk' (ih (rank slot - rank k') (by omega) k' rfl hk') _ (hmem hk hc)
  intro t ht
  rcases mem_dropProvided_or all later ht with ht' | ⟨k, hk, hc⟩
  · exact hleft t ht'
  · exact hvalue k hk (hslots _ k rfl hk) t (hmem ht hc)

/-! ## Dropping slots that the other values provide for -/

/-- A slot is covered if it is a key, and its values are literal values and values of the other
slots. -/
theorem isCovered_iff {literal : List Template} {others : List Slot} (hall : all.Over Named)
    (hliteral : ∀ t ∈ literal, t.Over Named) : isCovered all literal others s = true ↔
      s ∈ all.slots ∧ ∀ t ∈ all.sets s, t ∈ literal ∨ ∃ k ∈ others, t ∈ all.sets k := by
  have hkey : s ∈ all.slots ↔ all.get? s ≠ none := by
    rw [slots, ← OrderedMap.contains_iff_mem_keys, OrderedMap.contains_eq_isSome,
      Option.isSome_iff_ne_none]
    rfl
  have hcontent (t : Template) (ht : t ∈ all.sets s) :
      (OrderedSet.ofList (literal ++ others.flatMap fun s => (all.getD s).toList)).contains t = true ↔
        t ∈ literal ∨ ∃ k ∈ others, t ∈ all.sets k := by
    have hmem : (t ∈ literal ∨ ∃ k ∈ others, t ∈ all.sets k) ↔
        t ∈ literal ++ others.flatMap fun s => (all.getD s).toList := by
      rw [List.mem_append, List.mem_flatMap]
      rfl
    rw [OrderedSet.contains_ofList, List.any_eq_true, hmem]
    refine ⟨?_, fun ht => ⟨t, ht, BEq.rfl⟩⟩
    rintro ⟨t', ht', heq⟩
    have hnamed : t'.Over Named := by
      rcases List.mem_append.1 ht' with ht' | ht'
      · exact hliteral t' ht'
      · obtain ⟨k, -, ht'⟩ := List.mem_flatMap.1 ht'
        exact hall.values k t' ht'
    exact Template.eq_of_beq_of_named heq hnamed (hall.values s t ht) ▸ ht'
  rw [isCovered, hkey]
  cases hget : all.get? s with
  | none => simp
  | some provided =>
    have hprovided : all.sets s = provided.toList := by
      rw [sets, getD, hget]
      rfl
    rw [hprovided] at hcontent ⊢
    simp only [OrderedSet.subset, List.all_eq_true, ne_eq, reduceCtorEq, not_false_eq_true,
      true_and]
    exact forall₂_congr hcontent

/-- What holds of literal values and of the slots kept, passes from a slot to its values and back
from all of them, holds of all slots. -/
theorem keepUncovered_induct {literal : List Template} {kept rest : List Slot}
    (hall : all.Over Named) (hliteral : ∀ t ∈ literal, t.Over Named ∧ Q t)
    (hvalue : ∀ k ∈ kept ++ rest, Q (.ofSlot k) → ∀ t ∈ all.sets k, Q t)
    (hslot : ∀ k ∈ kept ++ rest, (∀ t ∈ all.sets k, Q t) → Q (.ofSlot k))
    (h : ∀ k ∈ keepUncovered all literal kept rest, Q (.ofSlot k)) :
    ∀ k ∈ kept ++ rest, Q (.ofSlot k) := by
  induction rest generalizing kept with
  | nil => simpa [keepUncovered] using h
  | cons s rest ih =>
    unfold keepUncovered at h
    split at h
    next hcovered =>
      have hsub : ∀ k ∈ kept ++ rest, k ∈ kept ++ s :: rest := by
        intro k hk
        rw [List.mem_append] at hk ⊢
        exact hk.imp_right (.tail _)
      have hothers := ih (fun k hk => hvalue k (hsub k hk)) (fun k hk => hslot k (hsub k hk)) h
      have hs : Q (.ofSlot s) := by
        apply hslot s (by simp)
        intro t ht
        rcases ((isCovered_iff hall fun t ht => (hliteral t ht).1).1 hcovered).2 t ht with
          ht | ⟨k, hk, ht⟩
        · exact (hliteral t ht).2
        · exact hvalue k (hsub k hk) (hothers k hk) t ht
      intro k hk
      rcases List.mem_append.1 hk with hk | hk
      · exact hothers k (List.mem_append_left _ hk)
      · rcases List.mem_cons.1 hk with rfl | hk
        · exact hs
        · exact hothers k (List.mem_append_right _ hk)
    · have happend : kept ++ s :: rest = kept ++ [s] ++ rest := by simp
      rw [happend] at hvalue hslot ⊢
      exact ih hvalue hslot h

theorem mem_dropCovered_or (all : SlotValues) (ht : t ∈ own.toList) (hnamed : SetOver Named own) :
    t ∈ (dropCovered all own).toList ∨
      ∃ k ∈ slotMembers own, k ∉ uncovered all own ∧ t = .ofSlot k := by
  by_cases hkept : ∀ k ∈ slotMembers own, k ∉ uncovered all own → (t == .ofSlot k) = false
  · exact .inl (mem_dropCovered_iff.2 ⟨ht, hkept⟩)
  · simp only [Classical.not_forall, Bool.not_eq_false] at hkept
    obtain ⟨k, hk, hnot, hbeq⟩ := hkept
    have hnamedSlot : (Template.ofSlot k).Over Named := hnamed _ (mem_slotMembers.1 hk)
    exact .inr ⟨k, hk, hnot, Template.eq_of_beq_of_named hbeq (hnamed t ht) hnamedSlot⟩

theorem keepUncovered_sublist {literal : List Template} {kept rest : List Slot} :
    (keepUncovered all literal kept rest).Sublist (kept ++ rest) := by
  induction rest generalizing kept with
  | nil => simp [keepUncovered]
  | cons s rest ih =>
    unfold keepUncovered
    split
    · exact ih.trans ((List.sublist_cons_self s rest).append_left kept)
    · have happend : kept ++ s :: rest = kept ++ [s] ++ rest := by simp
      exact happend ▸ ih

/-- What holds of the values that are left when the slots that the others provide for are dropped,
and passes from a slot to its values and back from all of them, holds of all values. -/
theorem dropCovered_induct (hall : all.Over Named) (hown : SetOver Named own)
    (hvalue : ∀ k, .ofSlot k ∈ own.toList → Q (.ofSlot k) → ∀ t ∈ all.sets k, Q t)
    (hslot : ∀ k, .ofSlot k ∈ own.toList → (∀ t ∈ all.sets k, Q t) → Q (.ofSlot k))
    (hleft : ∀ t ∈ (dropCovered all own).toList, Q t) : ∀ t ∈ own.toList, Q t := by
  have hliteral : ∀ t ∈ own.toList.filter (fun t => !t.hasSlots), t.Over Named ∧ Q t := by
    intro t ht
    obtain ⟨ht, hfree⟩ := List.mem_filter.1 ht
    refine ⟨hown t ht, hleft t ((mem_dropCovered_or all ht hown).resolve_right ?_)⟩
    rintro ⟨k, -, -, rfl⟩
    simp [Template.hasSlots, Template.ofSlot, Token.isSlot] at hfree
  have hkept : ∀ k ∈ uncovered all own, Q (.ofSlot k) := by
    intro k hk
    have hk' : .ofSlot k ∈ own.toList := mem_slotMembers.1 (keepUncovered_sublist.subset hk)
    refine hleft _ ((mem_dropCovered_or all hk' hown).resolve_right ?_)
    rintro ⟨k', -, hnot, heq⟩
    obtain rfl : k = k' := by simpa [Template.ofSlot] using heq
    exact hnot hk
  have hslots := keepUncovered_induct hall hliteral
    (fun k hk => hvalue k (mem_slotMembers.1 hk)) (fun k hk => hslot k (mem_slotMembers.1 hk)) hkept
  intro t ht
  rcases mem_dropCovered_or all ht hown with ht' | ⟨k, hk, -, rfl⟩
  · exact hleft t ht'
  · exact hslots k hk

/-! ## All that is given up -/

/-- Values passed on by a turn: what holds of the values that remain and passes between a slot and
its values, holds of all values gathered, if it holds of a value whenever it does so with
replacements followed. -/
theorem remaining_induct (later : List Slot) (hw : w.Over Named)
    (hsets : ∀ s k, .ofSlot k ∈ w.all.sets s → rank k < rank s)
    (hlt : ∀ k, .ofSlot k ∈ w.own.toList → rank k < rank slot)
    (hvalue : ∀ k, .ofSlot k ∈ w.own.toList → Q (.ofSlot k) → ∀ t ∈ w.all.sets k, Q t)
    (hslot : ∀ k, .ofSlot k ∈ w.own.toList → (∀ t ∈ w.all.sets k, Q t) → Q (.ofSlot k))
    (hrename : ∀ t ∈ w.own.toList, Q (t.rename w.all.replacements) → Q t)
    (hself : ∀ t ∈ w.own.toList, t.rename w.all.replacements ≠ .ofSlot slot)
    (hleft : ∀ t ∈ (remaining later slot w).toList, Q t) : ∀ t ∈ w.own.toList, Q t := by
  have hprovided : SetOver Named (dropProvided w.all later w.own) :=
    fun t ht => hw.own t (mem_of_mem_dropProvided ht)
  have hcovered : SetOver Named (dropCovered w.all (dropProvided w.all later w.own)) :=
    fun t ht => hprovided t (mem_of_mem_dropCovered ht)
  apply dropProvided_induct later hw.all hw.own hsets hlt hvalue
  refine dropCovered_induct hw.all hprovided (fun k hk => hvalue k (mem_of_mem_dropProvided hk))
    (fun k hk => hslot k (mem_of_mem_dropProvided hk)) fun t ht => ?_
  have hmem : t ∈ w.own.toList := mem_of_mem_dropProvided (mem_of_mem_dropCovered ht)
  apply hrename t hmem
  exact hleft _ (mem_dropSelf.2 ⟨rename_mem_follow hw.all hcovered ht, hself t hmem⟩)

theorem eq_ofSlot_of_rename {names : OrderedMap Slot Slot} (h : t.rename names = .ofSlot k) :
    ∃ k', t = .ofSlot k' ∧ k = (names.get? k').getD k' := by
  obtain ⟨tokens⟩ := t
  simp only [Template.rename, Template.ofSlot, Template.mk.injEq, List.map_eq_singleton_iff] at h
  obtain ⟨token, rfl, h⟩ := h
  cases token with
  | literal text => cases h
  | slot k' => exact ⟨k', rfl, (Token.slot.inj h).symm⟩

theorem mem_of_mem_remaining (ht : t ∈ (remaining later slot w).toList) :
    ∃ t' ∈ w.own.toList, t = t'.rename w.all.replacements := by
  obtain ⟨t', ht', heq⟩ := mem_of_mem_follow (mem_dropSelf.1 ht).1
  exact ⟨t', mem_of_mem_dropProvided (mem_of_mem_dropCovered ht'), heq⟩

theorem nodup_toList_of_template (templates : OrderedSet Template) : templates.toList.Nodup :=
  templates.distinct.imp fun h heq => by simp [heq] at h

/-- Of a slot that is the only value gathered, that slot remains or the one that replaces it, or
nothing. -/
theorem remaining_of_only (hsingle : w.own.toList = [.ofSlot target]) :
    (remaining later slot w).toList = [] ∨ ∃ k, (remaining later slot w).toList = [.ofSlot k] := by
  have hall : ∀ t ∈ (remaining later slot w).toList,
      t = .ofSlot ((w.all.replacements.get? target).getD target) := by
    intro t ht
    obtain ⟨t', ht', rfl⟩ := mem_of_mem_remaining ht
    rw [hsingle, List.mem_singleton] at ht'
    subst ht'
    rfl
  have hnodup := nodup_toList_of_template (remaining later slot w)
  match hlist : (remaining later slot w).toList with
  | [] => exact .inl rfl
  | [t] => exact .inr ⟨_, by rw [hall t (hlist ▸ .head _)]⟩
  | t :: t' :: rest =>
    rw [hlist, List.nodup_cons] at hnodup
    refine absurd ?_ hnodup.1
    rw [hall t (hlist ▸ .head _), ← hall t' (hlist ▸ .tail _ (.head _))]
    exact .head _

/-! ## Writing back -/

theorem sets_replace (v : SlotValues) (slot target s : Slot) :
    (v.replace slot target).sets s = if slot = s then [.ofSlot target] else v.sets s := by
  rw [sets, getD_replace]
  split <;> rfl

theorem sets_insert (v : SlotValues) (slot s : Slot) (templates : OrderedSet Template) :
    (v.insert slot templates).sets s = if slot = s then templates.toList else v.sets s := by
  rw [sets, getD_insert]
  split <;> rfl

theorem sets_conclude_self : (conclude v slot own).sets slot = own.toList := by
  rw [sets, getD_conclude, if_pos rfl]

theorem sets_conclude_ne (hs : s ≠ slot) : (conclude v slot own).sets s = v.sets s := by
  rw [sets, getD_conclude, if_neg hs.symm, sets]

/-- What is written back is what the slot stands for, unless the slot is replaced and its values do
not say so. -/
theorem rules_conclude_self
    (h : v.replacement? slot = none ∨ ∃ k, own.toList = [.ofSlot k]) :
    (conclude v slot own).rules slot = own.toList := by
  unfold conclude
  split
  next target htarget =>
    rw [only_single?_eq_some_iff.1 htarget]
    exact rules_of_replacement (replacement?_replace v slot target)
  next hnone =>
    refine rules_insert_self (h.resolve_right fun ⟨k, hk⟩ => ?_)
    rw [only_single?_eq_some_iff.2 hk] at hnone
    cases hnone

/-- A slot that is replaced and has no values left stands for what it stood for. -/
theorem rules_conclude_of_nil (hown : own.toList = [])
    (htarget : v.replacement? slot = some target) : (conclude v slot own).rules = v.rules := by
  have honly : own.only?.bind Template.single? = none := by simp [OrderedSet.only?, hown]
  funext s
  by_cases hs : s = slot
  · subst hs
    rw [rules_of_replacement htarget]
    apply rules_of_replacement
    rw [conclude, honly]
    exact htarget
  · exact rules_conclude_ne hs

end SlotValues

end GrammarInduction
