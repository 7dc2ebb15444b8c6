import GrammarInduction.Proofs.SlotValues.Settling

/-!
# What merging leaves

Whatever has been merged by whatever test of similarity: the slots that are replaced are replaced by
slots that are not and are values of theirs alone, no slot that is not replaced holds itself as a value
(`not_self_turn`), and no slot is left that is a value of just one other slot (`not_usedOnce_inlineAll`).
`Merged` is all of that, and `merged_of_mergeBy` says so of the outcome of merging.
-/

namespace GrammarInduction

namespace SlotValues

variable {v v' m : SlotValues} {slot target container s k : Slot} {slots sorted keys : List Slot}
  {state state' : SlotValues × List Slot} {alike : OrderedSet Template → OrderedSet Template → Bool}

/-! ## No slot holds itself -/

/-- After its turn a slot that is not replaced does not hold itself, and others come not to do so. -/
theorem not_self_turn (hnodup : slots.Nodup) (ht : turn alike slots state slot = .ok state')
    (h : s ≠ slot → state.1.Free s → .ofSlot s ∉ state.1.sets s) (hs : state'.1.Free s) :
    .ofSlot s ∉ state'.1.sets s := by
  have hfree := free_of_free_turn hnodup ht hs
  by_cases hne : s = slot
  · subst hne
    rw [sets, (worked_of_turn hnodup ht hfree).getD_self]
    exact fun hself => (mem_dropSelf.1 hself).2 rfl
  · rw [sets, getD_turn_of_ne hnodup ht hne hs]
    exact h hne hfree

/-- When a slot has had a turn, it does not hold itself in the end. -/
theorem not_self_settle {allowed rounds : Nat} (hnodup : slots.Nodup)
    (h : settle alike slots sorted allowed rounds v sorted = .ok v') (hslot : s ∈ sorted)
    (hs : v'.Free s) : .ofSlot s ∉ v'.sets s := by
  obtain ⟨state, state', rest, hmeets, ht⟩ := exists_turn_of_settle h hslot
  exact (hmeets.turn ht).settled_induct (I := fun w => w.Free s → .ofSlot s ∉ w.sets s)
    (fun _ _ _ _ _ hw ht => not_self_turn hnodup ht fun _ => hw)
    (not_self_turn hnodup ht fun hne => absurd rfl hne) h hs

/-- When a slot has had a turn, its set is no single slot in the end. -/
theorem divided_settle {allowed rounds : Nat} (hnodup : slots.Nodup)
    (h : settle alike slots sorted allowed rounds v sorted = .ok v') (hslot : s ∈ sorted)
    (hs : v'.Free s) : v'.Divided s := by
  obtain ⟨state, state', rest, hmeets, ht⟩ := exists_turn_of_settle h hslot
  exact (hmeets.turn ht).settled_induct (I := fun w => w.Free s → w.Divided s)
    (fun _ _ _ _ _ hw ht hs => divided_turn hnodup ht hs fun _ => hw)
    (fun hs => divided_turn hnodup ht hs fun hne => absurd rfl hne) h hs

theorem not_self_followAll (h : ∀ s, v.Free s → .ofSlot s ∉ v.sets s) (hs : v.Free s) :
    .ofSlot s ∉ v.followAll.sets s := by
  refine followAll_induct (I := fun w => .ofSlot s ∉ w.sets s) (h s hs) fun w hw _ slot _ => ?_
  unfold followIn
  split
  · rw [sets_insert]
    split
    next heq => exact fun hself => (mem_dropSelf.1 hself).2 (heq ▸ rfl)
    · exact hw
  · exact hw

theorem not_self_inlineInto (hused : UsedOnce v slot container)
    (h : ∀ s, v.Free s → .ofSlot s ∉ v.sets s) (hs : (v.inlineInto slot container).Free s) :
    .ofSlot s ∉ (v.inlineInto slot container).sets s := by
  obtain ⟨hfree, hslot⟩ := free_inlineInto_iff.1 hs
  by_cases hcontainer : s = container
  · subst hcontainer
    rw [inlineInto, sets_replace, if_neg hused.ne.symm, sets_insert, if_pos rfl]
    intro hself
    rcases OrderedSet.mem_of_mem_insertAll hself with hself | hself
    · exact h s hfree (List.mem_filter.1 hself).1
    · simpa using (List.mem_filter.1 hself).2
  · rw [sets_inlineInto_of_ne hslot hcontainer]
    exact h s hfree

/-! ## No slot is left that is used once -/

theorem usedOnce?_ne_none (h : UsedOnce v slot container) : v.usedOnce? ≠ none := by
  obtain ⟨users, hget, hmem⟩ := lists_containers_iff.2 ⟨h.container_unreplaced, h.value⟩
  have honly : ∀ c ∈ users.toList, c = container := fun c hc => by
    obtain ⟨hc, hvalue⟩ := lists_containers_iff.1 ⟨users, hget, hc⟩
    exact h.only c hc hvalue
  have husers : users.only? = some container := by
    rw [OrderedSet.only?_eq_some_iff]
    refine List.perm_singleton.1 ((List.perm_ext_iff_of_nodup users.nodup_toList
      (List.nodup_singleton container)).2 fun c => ?_)
    rw [List.mem_singleton]
    exact ⟨honly c, fun heq => heq ▸ hmem⟩
  obtain ⟨hkey, hfree⟩ := mem_unreplaced.1 h.unreplaced
  have hkey : v.contains slot = true := OrderedMap.contains_iff_mem_keys.2 hkey
  rw [usedOnce?, Ne, List.findSome?_eq_none_iff]
  intro hnone
  have := hnone _ (OrderedMap.get?_eq_some_iff.1 hget)
  simp [husers, h.ne, hfree, hkey] at this

theorem UsedOnce.congr (h : UsedOnce v slot container) (hfree : v'.unreplaced = v.unreplaced)
    (hsets : ∀ {s}, s ∈ v.unreplaced → v'.sets s = v.sets s) : UsedOnce v' slot container where
  ne := h.ne
  unreplaced := hfree ▸ h.unreplaced
  container_unreplaced := hfree ▸ h.container_unreplaced
  value := by
    change .ofSlot slot ∈ v'.sets container
    rw [hsets h.container_unreplaced]
    exact h.value
  only c hc hvalue := by
    rw [hfree] at hc
    change .ofSlot slot ∈ v'.sets c at hvalue
    rw [hsets hc] at hvalue
    exact h.only c hc hvalue

/-- With a step for each slot that is not replaced, all slots used once are dissolved. -/
theorem not_usedOnce_inlineAll {steps : Nat} (hkeys : KeysAre keys v)
    (h : v.unreplaced.length ≤ steps) (slot container : Slot) :
    ¬ UsedOnce (inlineAll steps v) slot container := by
  induction steps generalizing v with
  | zero =>
    intro hused
    have hnil : v.unreplaced = [] := List.length_eq_zero_iff.1 (Nat.le_zero.1 h)
    exact List.not_mem_nil (hnil ▸ hused.unreplaced)
  | succ steps ih =>
    unfold inlineAll
    split
    next first user hfirst =>
      have hused := usedOnce_of_usedOnce? hfirst
      have hkeys' := hkeys.inlineInto hused
      refine ih hkeys' (Nat.le_of_lt_succ (Nat.lt_of_lt_of_le ?_ h))
      exact unreplaced_length_lt hkeys hkeys' (fun s hs => (free_inlineInto_iff.1 hs).1) hused.free
        fun hs => (free_inlineInto_iff.1 hs).2 rfl
    next hnone => exact fun hused => usedOnce?_ne_none hused hnone

/-- At the end of the rounds no slot that is not replaced is a value of itself. -/
theorem not_self_compressAll {settled compressed : SlotValues} (hv : v.Recorded)
    (hsettled : Settled alike v settled) (hcompressed : settled.compressAll = .ok compressed)
    (hs : compressed.Free s) : .ofSlot s ∉ compressed.sets s := by
  have hfree := (free_compressAll_iff hcompressed).1 hs
  rw [sets_compressAll_of_free hcompressed hfree]
  intro hself
  have hkey : s ∈ v.slots :=
    (hv.keysAre.settled hsettled).slots ▸ mem_slots_of_sets_ne_nil (List.ne_nil_of_mem hself)
  exact not_self_settle v.values.nodup_keys hsettled (List.mem_mergeSort.2 hkey) hfree hself

/-- Dissolving slots keeps the keys and makes no slot a value of itself. -/
theorem selfless_inlineAll (hkeys : KeysAre keys v) (hself : ∀ s, v.Free s → .ofSlot s ∉ v.sets s)
    (steps : Nat) : KeysAre keys (inlineAll steps v) ∧
      ∀ s, (inlineAll steps v).Free s → .ofSlot s ∉ (inlineAll steps v).sets s :=
  inlineAll_induct (I := fun w => KeysAre keys w ∧ ∀ s, w.Free s → .ofSlot s ∉ w.sets s)
    ⟨hkeys, hself⟩
    (fun _ _ _ hused hw => ⟨hw.1.inlineInto hused, fun _ => not_self_inlineInto hused hw.2⟩) steps

/-! ## All together -/

/-- What is known of slot values that come out of merging. -/
structure Merged (m : SlotValues) : Prop where
  named : m.Over Named
  keys : KeysAre m.slots m
  direct : m.Direct
  stored : ∀ s target, m.replacement? s = some target →
    (m.get? s).map OrderedSet.toList = some [.ofSlot target]
  selfless : ∀ s, m.Free s → .ofSlot s ∉ m.sets s
  spent : ∀ slot container, ¬ UsedOnce m slot container

/-- What merging leaves, whatever has been merged by whatever test of similarity. -/
theorem merged_of_mergeBy (hnamed : v.Over Named) (hv : v.Recorded) (hm : v.mergeBy alike = .ok m) :
    m.Merged := by
  have hkeys : KeysAre v.slots m := hv.keysAre.mergeBy hm
  have hover := over_mergeBy hnamed hm
  obtain ⟨settled, compressed, hsettled, hcompressed, hm⟩ := mergeBy_eq_ok_iff.1 hm
  have hcompressedKeys := (hv.keysAre.settled hsettled).compressAll hcompressed
  have hfollowed : compressed.followAll.Free = compressed.Free :=
    free_eq_of_replacements (replacements_foldl_followIn compressed _)
  have hfew : compressed.followAll.unreplaced.length ≤ compressed.size := by
    refine (unreplaced_length_le hcompressedKeys.followAll).trans (Nat.le_of_eq ?_)
    rw [← hcompressedKeys.slots]
    exact List.length_map _
  have hspent := not_usedOnce_inlineAll hcompressedKeys.followAll hfew
  have hself : ∀ s, compressed.followAll.Free s → .ofSlot s ∉ compressed.followAll.sets s :=
    fun s hs => not_self_followAll (fun s => not_self_compressAll hv hsettled hcompressed)
      (hfollowed ▸ hs)
  obtain ⟨hdissolvedKeys, hdissolvedSelf⟩ :=
    selfless_inlineAll hcompressedKeys.followAll hself compressed.size
  have hfree {s : Slot} : m.Free s ↔ (inlineAll compressed.size compressed.followAll).Free s :=
    free_compressAll_iff hm
  have hsets {s : Slot} (hs : m.Free s) :
      m.sets s = (inlineAll compressed.size compressed.followAll).sets s :=
    sets_compressAll_of_free hm (hfree.1 hs)
  exact
    { named := hover
      keys := hkeys.slots.symm ▸ hkeys
      direct := direct_compressAll hm
      stored := fun _ _ => get?_of_replacement hm
      selfless := fun s hs => hsets hs ▸ hdissolvedSelf s (hfree.1 hs)
      spent := fun slot container hused => hspent slot container (hused.congr
        (unreplaced_eq hkeys hdissolvedKeys (funext fun _ => propext hfree.symm))
        fun hs => (hsets (mem_unreplaced_iff.1 hs).2).symm) }

end SlotValues

end GrammarInduction
