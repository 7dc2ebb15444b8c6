import GrammarInduction.Proofs.SlotValues.Dates

/-!
# Quiet rounds

A round in which no slot comes to be replaced is quiet. In it replaced slots have their chains
compressed, and the others give values up and take none in (`QuietTurn`). After a quiet round chains
of replacements lead to later dates alone (`Calm`), and the slots that change in the next one are not
replaced.

When all slots that change mention nothing that is replaced, what they give up they give up for good:
after one more round such a slot holds nothing that a later slot among its values provides, nor itself
(`Spare`), and from then on it changes only if it loses a reference to a key
(`Spare.card_references_lt`).
-/

namespace GrammarInduction

namespace SlotValues

variable {v v' : SlotValues} {slot target last s k : Slot} {slots rest dirty : List Slot}
  {own : OrderedSet Template} {t : Template} {state state' : SlotValues × List Slot} {w : Work}
  {alike : OrderedSet Template → OrderedSet Template → Bool}
  {date : Slot → Nat} {now bound limit : Nat}

/-! ## Quiet turns -/

/-- A turn in which no slot comes to be replaced. -/
inductive QuietTurn (slots : List Slot) (state : SlotValues × List Slot) (slot : Slot) :
    SlotValues × List Slot → Prop
  | point {target last : Slot} (htarget : state.1.replacement? slot = some target)
      (hlast : state.1.Free last) (hdirect : state.1.Free target → last = target) :
      QuietTurn slots state slot (state.1.replace slot last,
        if state.1.isReplaced target then slot :: state.2 else state.2)
  | narrow (hfree : state.1.Free slot)
      (hdivided : ∀ k, (remaining (laterThan slots slot) slot (untouched state slot)).toList ≠
        [.ofSlot k]) :
      QuietTurn slots state slot
        (state.1.insert slot (remaining (laterThan slots slot) slot (untouched state slot)),
          if reduces slot (laterThan slots slot) (untouched state slot) then slot :: state.2
          else state.2)

theorem chainEnd?_of_free {limit : Nat} (h : v.Free target) :
    v.chainEnd? slot limit target = some target := by
  unfold chainEnd?
  rw [h]

theorem conclude_of_divided (hown : ∀ k, own.toList ≠ [.ofSlot k]) :
    conclude v slot own = v.insert slot own := by
  unfold conclude
  split
  next target htarget => exact absurd (only_single?_eq_some_iff.1 htarget) (hown target)
  · rfl

theorem quietTurn_of_turn (hnodup : slots.Nodup) (ht : turn alike slots state slot = .ok state')
    (hquiet : ∀ s, state.1.Free s → state'.1.Free s) : QuietTurn slots state slot state' := by
  rcases turn_cases hnodup ht with ⟨target, last, htarget, hlast, rfl⟩ | ⟨hfree, hw⟩
  · refine .point htarget (free_chainEnd hlast) fun hfree => ?_
    rw [chainEnd?_of_free hfree] at hlast
    exact (Option.some.inj hlast).symm
  · obtain ⟨hdivided, houtcome⟩ : (∀ k, state'.1.sets slot ≠ [.ofSlot k]) ∧ _ :=
      ⟨(hw.free_self (hquiet slot hfree)).2, hw.outcome⟩
    have hidle : gathering alike slots state slot = untouched state slot := hw.idle hquiet
    rw [sets, hw.getD_self] at hdivided
    rw [hidle] at hdivided houtcome
    rw [houtcome]
    rw [conclude_of_divided hdivided]
    exact .narrow hfree hdivided

theorem free_of_free_run (hnodup : slots.Nodup)
    (hrun : dirty.foldlM (turn alike slots) state = .ok state') (hs : state'.1.Free s) :
    state.1.Free s :=
  foldlM_induct (I := fun mid => mid.1.Free s → state.1.Free s) id
    (fun _ _ _ _ hI ht hs => hI (free_of_free_turn hnodup ht hs)) hrun hs

/-- What holds at the start of a quiet round and is kept by each quiet turn, for the slots that still
have theirs, holds at the end. -/
theorem quiet_induct {I : List Slot → SlotValues × List Slot → Prop} (hnodup : slots.Nodup)
    (hrun : dirty.foldlM (turn alike slots) state = .ok state') (hstart : state.1.Free = v.Free)
    (hquiet : ∀ s, v.Free s → state'.1.Free s) (hI : I dirty state)
    (step : ∀ slot rest mid mid', I (slot :: rest) mid → turn alike slots mid slot = .ok mid' →
      mid.1.Free = v.Free → mid'.1.Free = v.Free → I rest mid') : I [] state' := by
  induction dirty generalizing state with
  | nil =>
    obtain rfl := Except.ok.inj hrun
    exact hI
  | cons slot rest ih =>
    rw [List.foldlM_cons] at hrun
    obtain ⟨mid, ht, hrun⟩ := bind_eq_ok hrun
    have hmid : mid.1.Free = v.Free := by
      funext s
      refine propext ⟨fun hs => hstart ▸ free_of_free_turn hnodup ht hs, fun hs => ?_⟩
      exact free_of_free_run hnodup hrun (hquiet s hs)
    exact ih hrun hmid (step slot rest state mid hI ht hstart hmid)

/-! ## Chains in quiet rounds -/

/-- Chains of replacements lead to later dates, and those of the slots that change are single steps. -/
structure Calm (date : Slot → Nat) (active : List Slot) (v : SlotValues) : Prop where
  strict : ∀ s k, v.replacement? s = some k → date s < date k
  direct : ∀ s ∈ active, ∀ k, v.replacement? s = some k → v.Free k

theorem QuietTurn.link (h : QuietTurn slots state slot state')
    (hk : state'.1.replacement? s = some k) :
    s = slot ∧ state.1.Free k ∧ ¬ state.1.Free s ∨ state.1.replacement? s = some k := by
  cases h with
  | point htarget hlast _ =>
    dsimp only at hk
    rw [replacement?_replace_eq] at hk
    split at hk
    next heq =>
      obtain rfl := Option.some.inj hk
      subst heq
      exact .inl ⟨rfl, hlast, not_free_of_replacement htarget⟩
    · exact .inr hk
  | narrow _ _ => exact .inr hk

section Round

variable (hnodup : slots.Nodup) (hrun : dirty.foldlM (turn alike slots) (v, []) = .ok state')
  (hquiet : ∀ s, v.Free s → state'.1.Free s)

include hnodup hrun hquiet

theorem free_eq_of_quiet : state'.1.Free = v.Free := by
  funext s
  exact propext ⟨free_of_free_run hnodup hrun, hquiet s⟩

/-- The slots that change in a quiet round and are replaced end up pointing at one that is not. -/
theorem direct_of_quiet {s : Slot} (hs : s ∈ state'.2) (hk : state'.1.replacement? s = some k) :
    state'.1.Free k := by
  rw [free_eq_of_quiet hnodup hrun hquiet]
  refine quiet_induct (I := fun _ mid => ∀ s ∈ mid.2, ∀ k, mid.1.replacement? s = some k → v.Free k)
    hnodup hrun rfl hquiet (fun s hs => absurd hs List.not_mem_nil) ?_ s hs k hk
  intro slot rest mid mid' hI ht hmid hmid' s hs k hk
  have hturn := quietTurn_of_turn hnodup ht (by rw [hmid, hmid']; exact fun _ h => h)
  rcases hturn.link hk with ⟨-, hfree, -⟩ | hold
  · exact hmid ▸ hfree
  · by_cases hmem : s ∈ mid.2
    · exact hI s hmem k hold
    -- A slot that is replaced and comes in now has had its chain compressed.
    cases hturn with
    | point htarget hlast hdirect =>
      obtain ⟨rfl, -⟩ := (mem_ite_cons.1 hs).resolve_right hmem
      dsimp only at hk
      rw [replacement?_replace] at hk
      exact hmid ▸ Option.some.inj hk ▸ hlast
    | narrow hfree _ =>
      obtain ⟨rfl, -⟩ := (mem_ite_cons.1 hs).resolve_right hmem
      exact absurd hfree (not_free_of_replacement hold)

/-- After calm the slots that change in a quiet round are not replaced. -/
theorem free_of_calm (hcalm : Calm date dirty v) (hs : s ∈ state'.2) : state'.1.Free s := by
  rw [free_eq_of_quiet hnodup hrun hquiet]
  refine (quiet_induct (I := fun rest mid =>
      (∀ s ∈ rest, ∀ k, mid.1.replacement? s = some k → v.Free k) ∧ ∀ s ∈ mid.2, v.Free s)
    hnodup hrun rfl hquiet ⟨hcalm.direct, fun s hs => absurd hs List.not_mem_nil⟩ ?_).2 s hs
  rintro slot rest mid mid' ⟨hdirect, hfree⟩ ht hmid hmid'
  have hturn := quietTurn_of_turn hnodup ht (by rw [hmid, hmid']; exact fun _ h => h)
  constructor
  · intro s hs k hk
    rcases hturn.link hk with ⟨-, hfree, -⟩ | hold
    · exact hmid ▸ hfree
    · exact hdirect s (.tail _ hs) k hold
  · intro s hs
    cases hturn with
    | @point target _ htarget _ _ =>
      have htarget : mid.1.isReplaced target = false := by
        rw [isReplaced_eq_false_iff, ← Free, hmid]
        exact hdirect slot (.head _) target htarget
      rw [htarget] at hs
      exact hfree s hs
    | narrow hslot _ =>
      rcases mem_ite_cons.1 hs with ⟨rfl, -⟩ | hs
      · exact hmid ▸ hslot
      · exact hfree s hs

end Round

/-! ## Values given up for good -/

/-- A slot holds nothing that a later slot among its values provides, nor itself. -/
structure Spare (slots : List Slot) (v : SlotValues) (s : Slot) : Prop where
  provided : ∀ k, .ofSlot k ∈ v.sets s → k ∈ laterThan slots s →
    ∀ t ∈ v.sets s, (v.getD k).contains t = false
  self : .ofSlot s ∉ v.sets s

section Narrow

/-- What is left when all slots mentioned are not replaced are values that are there already. -/
theorem mem_remaining_untouched (hown : SetOver state.1.Free (state.1.getD slot)) {later : List Slot}
    (ht : t ∈ (remaining later slot (untouched state slot)).toList) :
    t ∈ (dropProvided state.1 later (state.1.getD slot)).toList ∧ t ≠ .ofSlot slot := by
  obtain ⟨ht, hne⟩ := mem_dropSelf.1 ht
  obtain ⟨t', ht', rfl⟩ := mem_of_mem_follow ht
  have hmem : t' ∈ (dropProvided state.1 later (state.1.getD slot)).toList :=
    mem_of_mem_dropCovered ht'
  have heq : t'.rename (untouched state slot).all.replacements = t' :=
    Template.rename_eq_self fun s hs => hown t' (mem_of_mem_dropProvided hmem) s hs
  exact ⟨by rwa [heq], hne⟩

theorem mem_own_of_mem_remaining (hown : SetOver state.1.Free (state.1.getD slot)) {later : List Slot}
    (ht : t ∈ (remaining later slot (untouched state slot)).toList) : t ∈ state.1.sets slot :=
  mem_of_mem_dropProvided (mem_remaining_untouched hown ht).1

/-- After its turn a slot is spare. -/
theorem spare_narrow (hnodup : slots.Nodup) (hown : SetOver state.1.Free (state.1.getD slot)) :
    Spare slots
      (state.1.insert slot (remaining (laterThan slots slot) slot (untouched state slot))) slot where
  provided k hk hlater t ht := by
    rw [sets_insert, if_pos rfl] at hk ht
    rw [getD_insert, if_neg (ne_of_mem_laterThan hnodup hlater).symm]
    exact (mem_dropProvided_iff.1 (mem_remaining_untouched hown ht).1).2 k
      (mem_slotMembers.2 (mem_own_of_mem_remaining hown hk)) hlater
  self hself := by
    rw [sets_insert, if_pos rfl] at hself
    exact (mem_remaining_untouched hown hself).2 rfl

/-- A slot stays spare when another one gives values up. -/
theorem Spare.narrow (h : Spare slots state.1 s) (hne : s ≠ slot)
    (hown : SetOver state.1.Free (state.1.getD slot)) :
    Spare slots
      (state.1.insert slot (remaining (laterThan slots slot) slot (untouched state slot))) s where
  provided k hk hlater t ht := by
    rw [sets_insert, if_neg hne.symm] at hk ht
    rw [getD_insert]
    split
    next heq =>
      subst heq
      refine Bool.eq_false_iff.2 fun hc => ?_
      obtain ⟨t', ht', hbeq⟩ := OrderedSet.contains_iff.1 hc
      have hc' : (state.1.getD slot).contains t = true :=
        OrderedSet.contains_iff.2 ⟨t', mem_own_of_mem_remaining hown ht', hbeq⟩
      rw [h.provided slot hk hlater t ht] at hc'
      cases hc'
    · exact h.provided k hk hlater t ht
  self hself := by
    rw [sets_insert, if_neg hne.symm] at hself
    exact h.self hself

/-- A slot stays spare when the chain of a replaced one is compressed. -/
theorem Spare.point (h : Spare slots v s) (hown : SetOver v.Free (v.getD s)) (hs : v.Free s)
    (hslot : ¬ v.Free slot) : Spare slots (v.replace slot last) s := by
  have hne {s : Slot} (hs : v.Free s) : slot ≠ s := fun heq => hslot (heq ▸ hs)
  refine ⟨fun k hk hlater t ht => ?_, fun hself => ?_⟩
  · rw [sets_replace, if_neg (hne hs)] at hk ht
    have hfree : v.Free k := Template.over_ofSlot_iff.1 (hown _ hk)
    rw [getD_replace, if_neg (hne hfree)]
    exact h.provided k hk hlater t ht
  · rw [sets_replace, if_neg (hne hs)] at hself
    exact h.self hself

end Narrow

/-! ## Lost references -/

theorem dropSelf_eq_self (h : .ofSlot slot ∉ own.toList) : dropSelf slot own = own := by
  refine filter_eq_of_forall fun t ht => ?_
  rw [Bool.not_eq_true', beq_eq_false_iff_ne]
  exact fun hsingle => h (Template.eq_ofSlot_of_single? hsingle ▸ ht)

theorem dropProvided_eq_self {later : List Slot}
    (h : ∀ k, .ofSlot k ∈ own.toList → k ∈ later → ∀ t ∈ own.toList, (v.getD k).contains t = false) :
    dropProvided v later own = own := by
  refine OrderedSet.eq_of_toList_eq ?_
  rw [toList_dropProvided, List.filter_eq_self]
  intro t ht
  rw [List.all_eq_true]
  intro k hk
  rw [Bool.not_eq_true', Bool.and_eq_false_imp, List.contains_iff_mem]
  exact fun hlater => h k (mem_slotMembers.1 hk) hlater t ht

theorem mem_slots_of_not_mem_keepUncovered {literal : List Template} {kept rest : List Slot}
    (hk : k ∈ kept ++ rest) (hnot : k ∉ keepUncovered v literal kept rest) : k ∈ v.slots := by
  induction rest generalizing kept with
  | nil => exact absurd (List.append_nil kept ▸ hk) hnot
  | cons slot rest ih =>
    unfold keepUncovered at hnot
    split at hnot
    next hcovered =>
      by_cases heq : k = slot
      · unfold isCovered at hcovered
        cases hget : v.get? slot with
        | none => simp [hget] at hcovered
        | some provided =>
          exact heq ▸ List.mem_map_of_mem (OrderedMap.get?_eq_some_iff.1 hget)
      · refine ih ?_ hnot
        simpa [heq] using hk
    · exact ih (by simpa using hk) hnot

theorem dropCovered_eq_self (h : ∀ k ∈ slotMembers own, k ∈ uncovered v own) :
    dropCovered v own = own := by
  refine OrderedSet.eq_of_toList_eq ?_
  have hnone : (slotMembers own).filter (fun k => !(uncovered v own).contains k) = [] :=
    List.filter_eq_nil_iff.2 fun k hk => by simpa using h k hk
  rw [toList_dropCovered, hnone]
  exact List.filter_eq_self.2 fun _ _ => rfl

/-- A reference that is not kept is dropped as covered. -/
theorem not_mem_dropCovered (hk : k ∈ slotMembers own) (hnot : k ∉ uncovered v own) :
    .ofSlot k ∉ (dropCovered v own).toList := by
  intro hleft
  have hbeq : (Template.ofSlot k == .ofSlot k) = false := (mem_dropCovered_iff.1 hleft).2 k hk hnot
  rw [BEq.rfl] at hbeq
  cases hbeq

/-- Values are dropped as covered only with a reference to a key. -/
theorem exists_of_dropCovered_ne (h : (dropCovered v own).size ≠ own.size) :
    ∃ k, .ofSlot k ∈ own.toList ∧ k ∈ v.slots ∧ .ofSlot k ∉ (dropCovered v own).toList := by
  obtain ⟨k, hk, hnot⟩ : ∃ k ∈ slotMembers own, k ∉ uncovered v own := by
    refine Decidable.byContradiction fun hall => h (congrArg OrderedSet.size (dropCovered_eq_self ?_))
    exact fun k hk => Decidable.byContradiction fun hnot => hall ⟨k, hk, hnot⟩
  exact ⟨k, mem_slotMembers.1 hk, mem_slots_of_not_mem_keepUncovered (by simpa using hk) hnot,
    not_mem_dropCovered hk hnot⟩

/-- **A spare slot changes only by losing a reference to a key.** -/
theorem Spare.card_references_lt (h : Spare slots state.1 slot) (hkeys : state.1.slots = slots)
    (hown : SetOver state.1.Free (state.1.getD slot))
    (hdivided : ∀ k, (remaining (laterThan slots slot) slot (untouched state slot)).toList ≠
      [.ofSlot k])
    (hreduces : reduces slot (laterThan slots slot) (untouched state slot) = true) :
    (references slots (remaining (laterThan slots slot) slot (untouched state slot))).card <
      (references slots (state.1.getD slot)).card := by
  have hprovided : dropProvided state.1 (laterThan slots slot) (state.1.getD slot) =
      state.1.getD slot := dropProvided_eq_self h.provided
  have hmentions : state.1.mentionsReplaced (dropCovered state.1 (state.1.getD slot)) = false :=
    mentionsReplaced_eq_false_iff.2 fun t ht => hown t (mem_of_mem_dropCovered ht)
  have hself : dropSelf slot (dropCovered state.1 (state.1.getD slot)) =
      dropCovered state.1 (state.1.getD slot) :=
    dropSelf_eq_self fun hself => h.self (mem_of_mem_dropCovered hself)
  have hleft : remaining (laterThan slots slot) slot (untouched state slot) =
      dropCovered state.1 (state.1.getD slot) := by
    rw [remaining, untouched, hprovided, follow, hmentions]
    exact hself
  rw [hleft] at hdivided ⊢
  have hsize : (dropCovered state.1 (state.1.getD slot)).size ≠ (state.1.getD slot).size := by
    have hnone : (dropCovered state.1 (state.1.getD slot)).only?.bind Template.single? = none := by
      rw [Option.eq_none_iff_forall_ne_some]
      exact fun k hk => hdivided k (only_single?_eq_some_iff.1 hk)
    rw [reduces, hleft, hnone] at hreduces
    simpa [untouched, hprovided, follow, hmentions, hself] using hreduces
  obtain ⟨k, hk, hkey, hlost⟩ := exists_of_dropCovered_ne hsize
  refine Finset.card_lt_card (Finset.ssubset_iff_of_subset ?_ |>.2 ⟨k, ?_, ?_⟩)
  · intro k' hk'
    obtain ⟨hmem, hkey⟩ := mem_references.1 hk'
    exact mem_references.2 ⟨mem_of_mem_dropCovered hmem, hkey⟩
  · exact mem_references.2 ⟨hk, hkeys ▸ hkey⟩
  · exact fun hk => hlost (mem_references.1 hk).1

/-! ## Rounds in which nothing is followed -/

/-- While a quiet round is under way in which the slots that change mention nothing replaced: what is
known of the slots that still have their turn, and of those that have changed. If all were spare
before, those that have changed refer to fewer keys. -/
structure Still (slots : List Slot) (limit : Nat) (known : Prop) (rest : List Slot)
    (state : SlotValues × List Slot) : Prop where
  due : ∀ s ∈ rest, state.1.Free s → SetOver state.1.Free (state.1.getD s) ∧
    (references slots (state.1.getD s)).card ≤ limit ∧ (known → Spare slots state.1 s)
  done : ∀ s ∈ state.2, state.1.Free s → SetOver state.1.Free (state.1.getD s) ∧
    Spare slots state.1 s ∧ (references slots (state.1.getD s)).card ≤ limit ∧
    (known → (references slots (state.1.getD s)).card < limit)

namespace Still

variable {known : Prop}

theorem point (h : Still slots limit known (slot :: rest) state)
    (htarget : state.1.replacement? slot = some target) (last : Slot) :
    Still slots limit known rest (state.1.replace slot last,
      if state.1.isReplaced target then slot :: state.2 else state.2) := by
  have hslot : ¬ state.1.Free slot := not_free_of_replacement htarget
  have hfree : (state.1.replace slot last).Free = state.1.Free := by
    funext s
    exact propext (free_replace_iff hslot)
  have hsame {s : Slot} (hs : state.1.Free s) :
      (state.1.replace slot last).getD s = state.1.getD s := by
    have hne : slot ≠ s := fun heq => hslot (heq ▸ hs)
    rw [getD_replace, if_neg hne]
  constructor
  · intro s hs hs'
    dsimp only at hs' ⊢
    rw [hfree] at hs' ⊢
    rw [hsame hs']
    obtain ⟨hover, hcard, hspare⟩ := h.due s (.tail _ hs) hs'
    exact ⟨hover, hcard, fun hknown => (hspare hknown).point hover hs' hslot⟩
  · intro s hs hs'
    dsimp only at hs' ⊢
    rw [hfree] at hs' ⊢
    rw [hsame hs']
    have hmem : s ∈ state.2 := (mem_ite_cons.1 hs).resolve_left fun heq => hslot (heq.1 ▸ hs')
    obtain ⟨hover, hspare, hcard⟩ := h.done s hmem hs'
    exact ⟨hover, hspare.point hover hs' hslot, hcard⟩

theorem narrow (hnodup : slots.Nodup) (hkeys : state.1.slots = slots)
    (h : Still slots limit known (slot :: rest) state) (hslot : state.1.Free slot)
    (hdivided : ∀ k, (remaining (laterThan slots slot) slot (untouched state slot)).toList ≠
      [.ofSlot k]) :
    Still slots limit known rest
      (state.1.insert slot (remaining (laterThan slots slot) slot (untouched state slot)),
        if reduces slot (laterThan slots slot) (untouched state slot) then slot :: state.2
        else state.2) := by
  obtain ⟨hown, hcard, hspare⟩ := h.due slot (.head _) hslot
  have hleft : SetOver state.1.Free (remaining (laterThan slots slot) slot (untouched state slot)) :=
    fun t ht => hown t (mem_own_of_mem_remaining hown ht)
  have hfewer : (references slots
      (remaining (laterThan slots slot) slot (untouched state slot))).card ≤
      (references slots (state.1.getD slot)).card := by
    refine Finset.card_le_card fun k hk => ?_
    obtain ⟨hmem, hkey⟩ := mem_references.1 hk
    exact mem_references.2 ⟨mem_own_of_mem_remaining hown hmem, hkey⟩
  constructor
  · intro s hs hs'
    dsimp only
    rw [getD_insert]
    split
    next heq =>
      subst heq
      exact ⟨hleft, hfewer.trans hcard, fun _ => spare_narrow hnodup hown⟩
    next hne =>
      obtain ⟨hover, hcard, hspare⟩ := h.due s (.tail _ hs) hs'
      exact ⟨hover, hcard, fun hknown => (hspare hknown).narrow (Ne.symm hne) hown⟩
  · intro s hs hs'
    have hmem := mem_ite_cons.1 hs
    dsimp only
    rw [getD_insert]
    split
    next heq =>
      subst heq
      refine ⟨hleft, spare_narrow hnodup hown, hfewer.trans hcard, fun hknown => ?_⟩
      rcases hmem with ⟨-, hreduces⟩ | hmem
      · exact Nat.lt_of_lt_of_le
          ((hspare hknown).card_references_lt hkeys hown hdivided hreduces) hcard
      · exact Nat.lt_of_le_of_lt hfewer ((h.done slot hmem hslot).2.2.2 hknown)
    next hne =>
      have hmem : s ∈ state.2 := hmem.resolve_left fun heq => hne heq.1.symm
      obtain ⟨hover, hspare, hcard⟩ := h.done s hmem hs'
      exact ⟨hover, hspare.narrow (Ne.symm hne) hown, hcard⟩

/-- **Quiet rounds in which nothing is followed.** They leave the slots that have changed spare; if
the slots were spare before, those that have changed have lost a reference to a key. -/
theorem run (hnodup : slots.Nodup) (hkeys : KeysAre slots v) (hdirty : ∀ s ∈ dirty, s ∈ slots)
    (h : Still slots limit known dirty (v, []))
    (hrun : dirty.foldlM (turn alike slots) (v, []) = .ok state')
    (hquiet : ∀ s, v.Free s → state'.1.Free s) : Still slots limit known [] state' := by
  refine (quiet_induct (I := fun rest mid => (∀ s ∈ rest, s ∈ slots) ∧ KeysAre slots mid.1 ∧
    Still slots limit known rest mid) hnodup hrun rfl hquiet ⟨hdirty, hkeys, h⟩ ?_).2.2
  rintro slot rest mid mid' ⟨hrest, hkeys, h⟩ ht hmid hmid'
  rw [List.forall_mem_cons] at hrest
  refine ⟨hrest.2, hkeys.turn hrest.1 ht, ?_⟩
  cases quietTurn_of_turn hnodup ht (by rw [hmid, hmid']; exact fun _ h => h) with
  | point htarget hlast _ => exact h.point htarget _
  | narrow hslot hdivided => exact h.narrow hnodup hkeys.slots hslot hdivided

end Still

end SlotValues

end GrammarInduction
