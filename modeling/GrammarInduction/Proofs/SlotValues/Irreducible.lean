import GrammarInduction.Proofs.SlotValues.Merged

/-!
# Slot values that are left as they are

Slot values are irreducible if no step of merging by equality finds anything to do in the sets of the
slots that are not replaced (`Irreducible`). What has come out of merging and is irreducible stays as it
is when it is merged once more (`mergeBy_eq_self`): each turn leaves it alone, so that no round follows
the first one.
-/

namespace GrammarInduction

namespace SlotValues

variable {v m : SlotValues} {slot later target s k : Slot} {slots : List Slot}
  {own : OrderedSet Template} {w : Work}
  {alike : OrderedSet Template → OrderedSet Template → Bool}

/-! ## References that are provided for -/

/-- What else is in a set provides for a slot that is a value: each value of the slot is a literal one
of the set, or a value of another slot in it. -/
def Covers (v : SlotValues) (own : OrderedSet Template) (k : Slot) : Prop :=
  k ∈ v.slots ∧ ∀ t ∈ v.sets k, t ∈ own.toList ∧ t.hasSlots = false ∨
    ∃ k' ∈ slotMembers own, k' ≠ k ∧ t ∈ v.sets k'

/-- Membership goes by equality proper, not by the one for which anonymous slots are all the same. -/
instance (t : Template) (templates : List Template) : Decidable (t ∈ templates) :=
  decidable_of_iff (∃ t' ∈ templates, t' = t) exists_eq_right

instance (v : SlotValues) (own : OrderedSet Template) (k : Slot) : Decidable (v.Covers own k) :=
  inferInstanceAs (Decidable (_ ∧ ∀ t ∈ v.sets k, _ ∨ ∃ k' ∈ slotMembers own, _))

theorem nodup_slotMembers (own : OrderedSet Template) : (slotMembers own).Nodup := by
  refine (nodup_toList_of_template own).filterMap fun t t' k hk hk' => ?_
  rw [Template.eq_ofSlot_of_single? hk, Template.eq_ofSlot_of_single? hk']

theorem keepUncovered_eq_append_iff {literal : List Template} {kept rest : List Slot} :
    keepUncovered v literal kept rest = kept ++ rest ↔ ∀ before k after, rest = before ++ k :: after →
      isCovered v literal (kept ++ before ++ after) k = false := by
  induction rest generalizing kept with
  | nil => simp [keepUncovered]
  | cons s rest ih =>
    unfold keepUncovered
    split
    next hcovered =>
      refine iff_of_false (fun heq => ?_) fun h => ?_
      · have hsub : (keepUncovered v literal kept rest).Sublist (kept ++ rest) := keepUncovered_sublist
        have hlength := hsub.length_le
        simp only [heq, List.length_append, List.length_cons] at hlength
        omega
      · have := h [] s rest rfl
        simp [hcovered] at this
    next hfree =>
      have happend : kept ++ s :: rest = kept ++ [s] ++ rest := by simp
      rw [happend, ih]
      constructor
      · rintro h (_ | ⟨s', before⟩) k after heq
        · obtain ⟨rfl, rfl⟩ := List.cons.inj heq
          simpa using hfree
        · obtain ⟨rfl, rfl⟩ := List.cons.inj heq
          simpa using h before k after rfl
      · rintro h before k after rfl
        simpa using h (s :: before) k after rfl

/-- All references of a set are kept exactly if none is provided for. -/
theorem uncovered_eq_self_iff (hall : v.Over Named) (hown : SetOver Named own) :
    uncovered v own = slotMembers own ↔ ∀ k ∈ slotMembers own, ¬ v.Covers own k := by
  have hothers {before after : List Slot} {k : Slot} (hsplit : slotMembers own = before ++ k :: after)
      {k' : Slot} : k' ∈ before ++ after ↔ k' ∈ slotMembers own ∧ k' ≠ k := by
    have hnodup := nodup_slotMembers own
    rw [hsplit, List.nodup_middle, List.nodup_cons] at hnodup
    simp only [hsplit, List.mem_append, List.mem_cons] at hnodup ⊢
    grind
  have hcovered {before after : List Slot} {k : Slot} (hsplit : slotMembers own = before ++ k :: after) :
      isCovered v (own.toList.filter fun t => !t.hasSlots) (before ++ after) k = true ↔
        v.Covers own k := by
    rw [isCovered_iff hall fun t ht => hown t (List.mem_filter.1 ht).1, Covers]
    simp only [hothers hsplit, List.mem_filter, Bool.not_eq_true', and_assoc]
  refine keepUncovered_eq_append_iff.trans ?_
  simp only [List.nil_append]
  constructor
  · intro h k hk hcovers
    obtain ⟨before, after, hsplit⟩ := List.append_of_mem hk
    have := h before k after hsplit
    rw [(hcovered hsplit).2 hcovers] at this
    cases this
  · intro h before k after hsplit
    rw [← Bool.not_eq_true, hcovered hsplit]
    exact h k (hsplit ▸ List.mem_append_right _ (.head _))

/-- No slot is dropped as covered exactly if none is provided for. -/
theorem dropCovered_eq_self_iff (hall : v.Over Named) (hown : SetOver Named own) :
    dropCovered v own = own ↔ ∀ k ∈ slotMembers own, ¬ v.Covers own k := by
  rw [← uncovered_eq_self_iff hall hown]
  refine ⟨fun h => ?_, fun h => dropCovered_eq_self fun k hk => h.symm ▸ hk⟩
  have hsub : slotMembers own ⊆ uncovered v own := by
    refine fun k hk => Decidable.byContradiction fun hnot => not_mem_dropCovered hk hnot ?_
    rw [h]
    exact mem_slotMembers.1 hk
  exact keepUncovered_sublist.eq_of_length_le
    (List.subperm_of_subset (nodup_slotMembers own) hsub).length_le

/-! ## Irreducible slot values -/

theorem laterThan_cons (a : Slot) (slots : List Slot) :
    laterThan (a :: slots) s = if a = s then slots else laterThan slots s := by
  rw [laterThan, List.dropWhile_cons]
  by_cases h : a = s <;> simp [h, laterThan]

/-- Of two slots one is later than the other. -/
theorem mem_laterThan_or (hs : s ∈ slots) (hk : k ∈ slots) (hne : s ≠ k) :
    k ∈ laterThan slots s ∨ s ∈ laterThan slots k := by
  induction slots with
  | nil => cases hs
  | cons a slots ih =>
    rw [laterThan_cons, laterThan_cons]
    grind

theorem size_eq_of_sameMembers {own templates : OrderedSet Template}
    (h : own.sameMembers templates = true) : own.size = templates.size := by
  rw [OrderedSet.sameMembers, Bool.and_eq_true] at h
  exact eq_of_beq h.1

theorem sameMembers_symm {own templates : OrderedSet Template} (hown : SetOver Named own)
    (htheirs : SetOver Named templates) (h : own.sameMembers templates = true) :
    templates.sameMembers own = true := by
  rw [OrderedSet.sameMembers, size_eq_of_sameMembers h, OrderedSet.subset, beq_self_eq_true,
    Bool.true_and, List.all_eq_true]
  exact fun t ht => OrderedSet.contains_of_mem ((mem_of_sameMembers hown htheirs h).1 ht)

theorem closed_of_unreplaced (h : ∀ s ∈ v.unreplaced, SetOver v.Free (v.getD s)) : v.Closed :=
  fun s hs t ht => h s (mem_unreplaced_of_mem_sets hs ht) t ht

/-- No step of merging by equality finds anything to do in the sets of the slots that are not
replaced. -/
structure Irreducible (v : SlotValues) : Prop where
  /-- Their values mention no replaced slot. -/
  closed : v.Closed
  /-- No two of them have the same values. -/
  apart : ∀ s ∈ v.unreplaced, ∀ k ∈ v.unreplaced, (v.getD s).sameMembers (v.getD k) = true → s = k
  /-- None has a slot as its only value. -/
  divided : ∀ s ∈ v.unreplaced, v.Divided s
  /-- None shares a value with a later slot that is a value of it. -/
  unprovided : ∀ s ∈ v.unreplaced, ∀ k ∈ laterThan v.slots s, k ∈ slotMembers (v.getD s) →
    ∀ t ∈ v.sets s, t ∉ v.sets k
  /-- None has a slot as a value that its other values provide for. -/
  uncovered : ∀ s ∈ v.unreplaced, ∀ k ∈ slotMembers (v.getD s), ¬ v.Covers (v.getD s) k

theorem divided_iff : v.Divided s ↔ (v.getD s).only?.bind Template.single? = none := by
  rw [Option.eq_none_iff_forall_ne_some]
  exact forall_congr' fun k => not_congr only_single?_eq_some_iff.symm

instance (v : SlotValues) (s : Slot) : Decidable (v.Divided s) := decidable_of_iff _ divided_iff.symm

instance (v : SlotValues) : Decidable v.Irreducible :=
  decidable_of_iff
    ((∀ s ∈ v.unreplaced, SetOver v.Free (v.getD s)) ∧
      (∀ s ∈ v.unreplaced, ∀ k ∈ v.unreplaced,
        (v.getD s).sameMembers (v.getD k) = true → s = k) ∧
      (∀ s ∈ v.unreplaced, v.Divided s) ∧
      (∀ s ∈ v.unreplaced, ∀ k ∈ laterThan v.slots s, k ∈ slotMembers (v.getD s) →
        ∀ t ∈ v.sets s, t ∉ v.sets k) ∧
      ∀ s ∈ v.unreplaced, ∀ k ∈ slotMembers (v.getD s), ¬ v.Covers (v.getD s) k)
    ⟨fun ⟨hclosed, happart, hdivided, hunprovided, huncovered⟩ =>
      ⟨closed_of_unreplaced hclosed, happart, hdivided, hunprovided, huncovered⟩,
    fun h => ⟨fun s hs => h.closed s (mem_unreplaced_iff.1 hs).2, h.apart, h.divided, h.unprovided,
      h.uncovered⟩⟩

/-! ## Steps that change nothing -/

theorem insert_getD_eq_self (hs : s ∈ v.slots) : v.insert s (v.getD s) = v := by
  rw [slots, ← OrderedMap.contains_iff_mem_keys, OrderedMap.contains_eq_isSome,
    Option.isSome_iff_exists] at hs
  obtain ⟨own, hget⟩ := hs
  have hown : v.getD s = own := by
    rw [getD, get?, hget]
    rfl
  rw [insert, hown, OrderedMap.insert_eq_self hget]

theorem replace_eq_self (hs : v.replacement? s = some target)
    (hset : (v.get? s).map OrderedSet.toList = some [.ofSlot target]) : v.replace s target = v := by
  obtain ⟨own, hget, hown⟩ := Option.map_eq_some_iff.1 hset
  obtain rfl : own = residual target := OrderedSet.eq_of_toList_eq hown
  rw [replace, OrderedMap.insert_eq_self hget, OrderedMap.insert_eq_self hs]

theorem absorb_eq_self (halike : w.all.Free later → alike w.own (w.all.getD later) = false)
    (hdivided : ∀ k, w.own.toList ≠ [.ofSlot k]) : absorb alike slot w later = w := by
  refine absorb_induct (I := (· = w)) rfl (fun hfree hsame => ?_) ?_
  · rw [halike hfree] at hsame
    cases hsame
  · rintro _ rfl _ honly
    exact absurd honly (hdivided later)

theorem followAll_eq_self (hclosed : v.Closed) : v.followAll = v := by
  refine followAll_induct (I := (· = v)) rfl ?_
  rintro _ rfl - slot hslot
  rw [followIn, mentionsReplaced_eq_false_iff.2 (hclosed slot (mem_unreplaced_iff.1 hslot).2)]
  rfl

/-- If no slot is used once, none is dissolved. -/
theorem inlineAll_eq_self (h : ∀ slot container, ¬ UsedOnce v slot container) (steps : Nat) :
    inlineAll steps v = v := by
  cases steps with
  | zero => rfl
  | succ steps =>
    unfold inlineAll
    split
    next slot container hused => exact absurd (usedOnce_of_usedOnce? hused) (h slot container)
    · rfl

section Idle

variable (hprovided : dropProvided w.all slots w.own = w.own)
  (hcovered : dropCovered w.all w.own = w.own) (hfree : SetOver w.all.Free w.own)
  (hself : .ofSlot slot ∉ w.own.toList)

include hprovided hcovered hfree hself

/-- A slot that gives up nothing keeps its set. -/
theorem remaining_eq_self : remaining slots slot w = w.own := by
  rw [remaining, hprovided, hcovered, follow_eq_self hfree, dropSelf_eq_self hself]

theorem reduces_eq_false (hdivided : ∀ k, w.own.toList ≠ [.ofSlot k]) (hchanged : w.changed = false) :
    reduces slot slots w = false := by
  have hnone : w.own.only?.bind Template.single? = none :=
    Option.eq_none_iff_forall_ne_some.2 fun k hk => hdivided k (only_single?_eq_some_iff.1 hk)
  simp [reduces, remaining_eq_self hprovided hcovered hfree hself, hprovided, hcovered,
    follow_eq_self hfree, dropSelf_eq_self hself, mentionsReplaced_eq_false_iff.2 hfree, hnone, hchanged]

end Idle

/-! ## Merging once more -/

section Merged

variable (h : m.Merged) (hirr : m.Irreducible)

include h

theorem Merged.compress_eq (limit : Nat) (slot : Slot) : m.compress limit slot = .ok (m, false) := by
  unfold compress
  split
  · rfl
  next target htarget =>
    have hfree := h.direct slot target htarget
    rw [chainEnd?_of_free hfree]
    simp only [replace_eq_self htarget (h.stored slot target htarget), isReplaced_eq_false_iff.2 hfree]

theorem Merged.compressAll_eq : m.compressAll = .ok m :=
  foldlM_eq_self fun slot _ => by rw [h.compress_eq]; rfl

include hirr

/-- No turn changes irreducible slot values. -/
theorem turn_eq_self (halike : ∀ a b, alike a b = true → a.sameMembers b = true)
    (hslot : slot ∈ m.slots) : turn alike m.slots (m, []) slot = .ok (m, []) := by
  by_cases hfree : m.Free slot
  swap
  · rw [Free, ← isReplaced_eq_false_iff, Bool.not_eq_false] at hfree
    simp only [turn, hfree, if_true, h.compress_eq]
    rfl
  have hnodup : m.slots.Nodup := m.values.nodup_keys
  have hmem : slot ∈ m.unreplaced := mem_unreplaced_iff.2 ⟨hslot, hfree⟩
  have hidle : gathering alike m.slots (m, []) slot = untouched (m, []) slot := by
    refine gathering_induct (I := (· = untouched (m, []) slot)) rfl ?_
    rintro _ rfl later hlater
    refine absorb_eq_self (fun hlaterFree => Bool.eq_false_iff.2 fun hsame => ?_) (hirr.divided slot hmem)
    have hlaterMem := mem_unreplaced_iff.2 ⟨mem_of_mem_laterThan hlater, hlaterFree⟩
    exact ne_of_mem_laterThan hnodup hlater
      (hirr.apart slot hmem later hlaterMem (halike _ _ hsame)).symm
  have hprovided : dropProvided m (laterThan m.slots slot) (m.getD slot) = m.getD slot := by
    refine dropProvided_eq_self fun k hk hlater t ht => Bool.eq_false_iff.2 fun hc => ?_
    refine hirr.unprovided slot hmem k hlater (mem_slotMembers.2 hk) t ht ?_
    exact mem_of_contains_of_named (h.named.values k) (h.named.values slot t ht) hc
  have hcovered : dropCovered m (m.getD slot) = m.getD slot :=
    (dropCovered_eq_self_iff h.named (h.named.values slot)).2 (hirr.uncovered slot hmem)
  have hclosed := hirr.closed slot hfree
  have hself := h.selfless slot hfree
  have hdivided := hirr.divided slot hmem
  have hleft : remaining (laterThan m.slots slot) slot (untouched (m, []) slot) = m.getD slot :=
    remaining_eq_self hprovided hcovered hclosed hself
  have hsame : reduces slot (laterThan m.slots slot) (untouched (m, []) slot) = false :=
    reduces_eq_false hprovided hcovered hclosed hself hdivided rfl
  obtain ⟨state', ht⟩ : ∃ state', turn alike m.slots (m, []) slot = .ok state' :=
    exists_turn h.direct.straight h.keys slot
  rw [ht, (worked_of_turn hnodup ht hfree).outcome, hidle, hsame, hleft, conclude_of_divided hdivided]
  simp only [untouched, insert_getD_eq_self hslot]
  rfl

/-- **Irreducible slot values stay as they are.** -/
theorem mergeBy_eq_self (halike : ∀ a b, alike a b = true → a.sameMembers b = true) :
    m.mergeBy alike = .ok m := by
  have hround : (m.slots.mergeSort Slot.le).foldlM (turn alike m.slots) (m, []) = .ok (m, []) :=
    foldlM_eq_self fun slot hslot => turn_eq_self h hirr halike (List.mem_mergeSort.1 hslot)
  have hsettled : Settled alike m m := by
    obtain ⟨rounds, hrounds⟩ : ∃ rounds, (m.slots.length + 1) * roundsPerSlot = rounds + 1 :=
      Nat.exists_eq_succ_of_ne_zero (Nat.mul_ne_zero (Nat.succ_ne_zero _) (by decide))
    have hnone : (m.slots.mergeSort Slot.le).filter ([] : List Slot).contains = [] :=
      List.filter_eq_nil_iff.2 (by simp)
    rw [Settled, hrounds, settle_succ, hround]
    change settle alike m.slots _ (rounds + 1) rounds m (List.filter ([] : List Slot).contains _) = _
    rw [hnone, settle_nil]
  refine mergeBy_eq_ok_iff.2 ⟨m, m, hsettled, h.compressAll_eq, ?_⟩
  rw [followAll_eq_self hirr.closed, inlineAll_eq_self h.spent, h.compressAll_eq]

end Merged

end SlotValues

end GrammarInduction
