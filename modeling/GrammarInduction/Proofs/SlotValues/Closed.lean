import GrammarInduction.Proofs.SlotValues.Shapes

/-!
# Closed slot values

Slot values are closed if no value of a slot that is not replaced mentions a replaced slot. What
merging has united is closed (`closed_united`): every chain of replacements is a single step, and all
values follow it. Dissolving slots used once comes after that, and a slot that is dissolved in the
one that has it as a value may still be mentioned within longer values.

* `dissolved_inlineAll`: no slot that is dissolved is left as a value by itself, and the slots
  mentioned within longer values stay the same.
* `closed_iff`: what comes out of merging is closed exactly if no slot is dissolved that is mentioned
  within a longer value.
-/

namespace GrammarInduction

namespace SlotValues

variable {u v v' m : SlotValues} {slot target container s k : Slot} {own : OrderedSet Template}
  {t : Template} {alike : OrderedSet Template → OrderedSet Template → Bool}

/-- No value of a slot that is not replaced mentions a replaced slot. -/
def Closed (v : SlotValues) : Prop := ∀ s, v.Free s → SetOver v.Free (v.getD s)

/-- A slot is mentioned in a value of a slot that is not replaced, and is not the value itself. -/
def MentionedWithin (v : SlotValues) (k : Slot) : Prop :=
  ∃ s, v.Free s ∧ ∃ t ∈ v.sets s, k ∈ t.slots ∧ t ≠ .ofSlot k

theorem mem_unreplaced_iff : s ∈ v.unreplaced ↔ s ∈ v.slots ∧ v.Free s := by
  rw [mem_unreplaced, isReplaced_eq_false_iff]

theorem mem_unreplaced_of_mem_sets (hs : v.Free s) (ht : t ∈ v.sets s) : s ∈ v.unreplaced :=
  mem_unreplaced_iff.2 ⟨mem_slots_of_sets_ne_nil (List.ne_nil_of_mem ht), hs⟩

/-! ## Chains of replacements -/

/-- Every replacement leads to a slot that is not replaced. -/
def Direct (v : SlotValues) : Prop := ∀ s target, v.replacement? s = some target → v.Free target

theorem free_replace_iff (hslot : ¬ v.Free slot) : (v.replace slot target).Free s ↔ v.Free s := by
  rw [Free, replacement?_replace_eq]
  split
  next heq => simpa using heq ▸ hslot
  · exact Iff.rfl

theorem free_compress_iff {limit : Nat} {r : SlotValues × Bool} (hr : v.compress limit slot = .ok r) :
    r.1.Free s ↔ v.Free s := by
  rcases compress_eq_ok hr with ⟨-, rfl⟩ | ⟨target, last, htarget, -, rfl⟩
  · exact Iff.rfl
  · exact free_replace_iff (not_free_of_replacement htarget)

theorem free_compressAll_iff (h : v.compressAll = .ok v') : v'.Free s ↔ v.Free s :=
  compressAll_induct (I := fun v' => v'.Free s ↔ v.Free s) Iff.rfl
    (fun _ _ _ _ hfree hr => (free_compress_iff hr).trans hfree) h

/-- After its chain is compressed a slot leads to one that is not replaced, and other slots that have
done so still do. -/
theorem free_of_compress {limit : Nat} {r : SlotValues × Bool} (hr : v.compress limit slot = .ok r)
    (hs : s ≠ slot → ∀ target, v.replacement? s = some target → v.Free target)
    (htarget : r.1.replacement? s = some target) : r.1.Free target := by
  rw [free_compress_iff hr]
  rcases compress_eq_ok hr with ⟨hfree, rfl⟩ | ⟨target', last, -, hlast, rfl⟩
  · refine hs ?_ target htarget
    rintro rfl
    exact not_free_of_replacement htarget hfree
  · rw [replacement?_replace_eq] at htarget
    split at htarget
    · exact Option.some.inj htarget ▸ free_chainEnd hlast
    next hne => exact hs (Ne.symm hne) target htarget

theorem direct_compressAll (h : v.compressAll = .ok v') : v'.Direct := by
  intro s target hs
  have hs' : ¬ v.Free s := fun hfree => by
    rw [(free_compressAll_iff h).2 hfree] at hs
    cases hs
  have hkey : s ∈ v.replacements.keys := by
    rw [← OrderedMap.contains_iff_mem_keys, ← isReplaced, isReplaced_eq_isSome]
    exact Option.isSome_iff_ne_none.2 hs'
  refine foldlM_establish (R := fun s (v : SlotValues) =>
    ∀ target, v.replacement? s = some target → v.Free target) ?_ h s hkey target hs
  intro slot w w' hw
  obtain ⟨r, hr, rfl⟩ := map_eq_ok hw
  exact ⟨fun _ => free_of_compress hr (absurd rfl), fun _ hs _ => free_of_compress hr fun _ => hs⟩

theorem sets_compressAll_of_free (h : v.compressAll = .ok v') (hs : v.Free s) :
    v'.sets s = v.sets s := by
  refine (compressAll_induct (I := fun v' => v'.Free s ∧ v'.sets s = v.sets s) ⟨hs, rfl⟩ ?_ h).2
  rintro limit slot w r ⟨hfree, hsets⟩ hr
  refine ⟨(free_compress_iff hr).2 hfree, ?_⟩
  rcases compress_eq_ok hr with ⟨-, rfl⟩ | ⟨target, last, htarget, -, rfl⟩
  · exact hsets
  · rw [sets_replace, if_neg]
    · exact hsets
    · rintro rfl
      exact not_free_of_replacement htarget hfree

/-! ## Following replacements -/

theorem mentionsReplaced_eq_false_iff : v.mentionsReplaced own = false ↔ SetOver v.Free own := by
  simp [mentionsReplaced, SetOver, Template.Over, isReplaced_eq_false_iff]

/-- Where no value mentions a replaced slot there is nothing to follow. -/
theorem follow_eq_self (h : SetOver v.Free own) : v.follow own = own := by
  rw [follow, mentionsReplaced_eq_false_iff.2 h]
  rfl

theorem setOver_follow (h : v.Direct) (own : OrderedSet Template) :
    SetOver v.Free (v.follow own) := by
  intro t ht k hk
  obtain ⟨t', -, rfl⟩ := mem_of_mem_follow ht
  obtain ⟨k', -, rfl⟩ := Template.mem_slots_rename.1 hk
  cases hget : v.replacements.get? k' with
  | none => exact hget
  | some target => exact h k' target hget

theorem free_eq_of_replacements (h : v'.replacements = v.replacements) : v'.Free = v.Free := by
  funext s
  rw [Free, replacement?, h]
  rfl

/-- A slot that has its turn mentions no replaced slot then. -/
theorem setOver_followIn (h : v.Direct) (hsame : v'.replacements = v.replacements) :
    SetOver v.Free ((v'.followIn slot).getD slot) := by
  have hdirect : v'.Direct := by
    intro s target hs
    rw [free_eq_of_replacements hsame]
    exact h s target (by rwa [replacement?, hsame] at hs)
  rw [← free_eq_of_replacements hsame]
  unfold followIn
  split
  · rw [getD_insert, if_pos rfl]
    exact (setOver_follow hdirect _).filter _
  next hmentions =>
    exact mentionsReplaced_eq_false_iff.1 (Bool.not_eq_true _ ▸ hmentions)

theorem getD_followIn_of_ne (hs : slot ≠ s) : (v.followIn slot).getD s = v.getD s := by
  unfold followIn
  split
  · rw [getD_insert, if_neg hs]
  · rfl

theorem setOver_followAll (h : v.Direct) (hs : s ∈ v.unreplaced) :
    SetOver v.Free (v.followAll.getD s) := by
  obtain ⟨before, after, hsplit⟩ := List.append_of_mem hs
  rw [followAll_eq, hsplit, List.foldl_append, List.foldl_cons]
  have hbefore := replacements_foldl_followIn v before
  -- The turns of other slots leave the values of this one alone.
  refine (List.foldlRecOn (motive := fun w => w.replacements = v.replacements ∧
    SetOver v.Free (w.getD s)) after followIn
    ⟨(replacements_followIn _ s).trans hbefore, setOver_followIn h hbefore⟩ ?_).2
  rintro w ⟨hsame, hw⟩ slot -
  refine ⟨(replacements_followIn w slot).trans hsame, ?_⟩
  by_cases heq : slot = s
  · exact heq ▸ setOver_followIn h hsame
  · rwa [getD_followIn_of_ne heq]

theorem closed_followAll (h : v.Direct) : v.followAll.Closed := by
  have hsame : v.followAll.replacements = v.replacements := replacements_foldl_followIn v _
  intro s hs
  rw [free_eq_of_replacements hsame] at hs ⊢
  by_cases hmem : s ∈ v.unreplaced
  · exact setOver_followAll h hmem
  -- A slot without a turn has no values.
  have hkept : v.followAll.getD s = v.getD s :=
    followAll_induct (I := fun w => w.getD s = v.getD s) rfl
      fun w hw _ slot hslot => (getD_followIn_of_ne (ne_of_mem_of_not_mem hslot hmem)).trans hw
  have hnil : v.sets s = [] :=
    Decidable.byContradiction fun hne =>
      hmem (mem_unreplaced_iff.2 ⟨mem_slots_of_sets_ne_nil hne, hs⟩)
  rw [hkept]
  intro t ht
  rw [sets, List.eq_nil_iff_forall_not_mem] at hnil
  exact absurd ht (hnil t)

/-! ## United slot values -/

theorem closed_united (hu : v.united alike = .ok u) : u.Closed := by
  obtain ⟨settled, compressed, -, hcompressed, rfl⟩ := united_eq_ok_iff.1 hu
  exact closed_followAll (direct_compressAll hcompressed)

theorem over_united {P : Slot → Prop} (h : v.Over P) (hu : v.united alike = .ok u) : u.Over P := by
  obtain ⟨settled, compressed, hsettled, hcompressed, rfl⟩ := united_eq_ok_iff.1 hu
  exact ((h.settled hsettled).compressAll hcompressed).followAll

/-! ## Dissolving slots used once -/

theorem UsedOnce.free (h : UsedOnce v slot container) : v.Free slot :=
  (mem_unreplaced_iff.1 h.unreplaced).2

theorem UsedOnce.container_free (h : UsedOnce v slot container) : v.Free container :=
  (mem_unreplaced_iff.1 h.container_unreplaced).2

theorem free_inlineInto_iff : (v.inlineInto slot container).Free s ↔ v.Free s ∧ s ≠ slot := by
  rw [Free, inlineInto, replacement?_replace_eq, replacement?_insert]
  by_cases h : slot = s
  · simp [h]
  · simp [h, Ne.symm h]

theorem sets_inlineInto_of_ne (hslot : s ≠ slot) (hcontainer : s ≠ container) :
    (v.inlineInto slot container).sets s = v.sets s := by
  rw [inlineInto, sets_replace, if_neg hslot.symm, sets_insert, if_neg hcontainer.symm]

/-- The slot that a slot is dissolved in has values of both. -/
theorem mem_sets_of_mem_inlineInto (h : UsedOnce v slot container)
    (ht : t ∈ (v.inlineInto slot container).sets container) :
    t ≠ .ofSlot slot ∧ (t ∈ v.sets container ∨ t ∈ v.sets slot) := by
  rw [inlineInto, sets_replace, if_neg h.ne.symm, sets_insert, if_pos rfl] at ht
  rcases OrderedSet.mem_of_mem_insertAll ht with ht | ht
  · obtain ⟨ht, hne⟩ := List.mem_filter.1 ht
    refine ⟨?_, .inl ht⟩
    rintro rfl
    simp at hne
  · have ht := (List.mem_filter.1 ht).1
    refine ⟨?_, .inr ht⟩
    rintro rfl
    exact h.ne (h.only slot h.unreplaced ht).symm

/-- The other slots that are not replaced keep their values. -/
theorem mem_sets_inlineInto_cases (h : UsedOnce v slot container)
    (hs : (v.inlineInto slot container).Free s)
    (ht : t ∈ (v.inlineInto slot container).sets s) :
    t ≠ .ofSlot slot ∧ ∃ s', v.Free s' ∧ t ∈ v.sets s' := by
  obtain ⟨hfree, hslot⟩ := free_inlineInto_iff.1 hs
  by_cases hcontainer : s = container
  · subst hcontainer
    obtain ⟨hne, ht⟩ := mem_sets_of_mem_inlineInto h ht
    exact ⟨hne, ht.elim (fun ht => ⟨s, hfree, ht⟩) fun ht => ⟨slot, h.free, ht⟩⟩
  · rw [sets_inlineInto_of_ne hslot hcontainer] at ht
    refine ⟨?_, s, hfree, ht⟩
    rintro rfl
    exact hcontainer (h.only s (mem_unreplaced_of_mem_sets hfree ht) ht)

theorem mentionedWithin_inlineInto_iff (hv : v.Over Named) (h : UsedOnce v slot container) :
    (v.inlineInto slot container).MentionedWithin k ↔ v.MentionedWithin k := by
  constructor
  · rintro ⟨s, hs, t, ht, hk, hne⟩
    obtain ⟨-, s', hs', ht⟩ := mem_sets_inlineInto_cases h hs ht
    exact ⟨s', hs', t, ht, hk, hne⟩
  · rintro ⟨s, hs, t, ht, hk, hne⟩
    have hlong (k' : Slot) : t ≠ .ofSlot k' := by
      rintro rfl
      rw [Template.slots_ofSlot, List.mem_singleton] at hk
      exact hne (hk ▸ rfl)
    have hcontainer : (v.inlineInto slot container).Free container :=
      free_inlineInto_iff.2 ⟨h.container_free, h.ne⟩
    have hmem (ht : t ∈ v.sets container ∨ t ∈ v.sets slot) :
        (v.inlineInto slot container).MentionedWithin k := by
      refine ⟨container, hcontainer, t, ?_, hk, hne⟩
      rw [← rules_of_unreplaced hcontainer]
      exact mem_rules_inlineInto hv h (ht.imp (⟨·, hlong _⟩) (⟨·, hlong _⟩))
    by_cases hslot : s = slot
    · exact hmem (.inr (hslot ▸ ht))
    by_cases hs' : s = container
    · exact hmem (.inl (hs' ▸ ht))
    · refine ⟨s, free_inlineInto_iff.2 ⟨hs, hslot⟩, t, ?_, hk, hne⟩
      rwa [sets_inlineInto_of_ne hslot hs']

/-- What is known when slots of closed slot values have been dissolved. -/
structure Dissolved (u v : SlotValues) : Prop where
  named : v.Over Named
  free : ∀ s, v.Free s → u.Free s
  mentioned : ∀ s, v.Free s → ∀ t ∈ v.sets s, ∀ k ∈ t.slots,
    u.Free k ∧ (v.Free k ∨ t ≠ .ofSlot k)
  within : ∀ k, v.MentionedWithin k ↔ u.MentionedWithin k

theorem Dissolved.inlineInto (h : Dissolved u v) (hused : UsedOnce v slot container) :
    Dissolved u (v.inlineInto slot container) where
  named := h.named.inlineInto hused
  free s hs := h.free s (free_inlineInto_iff.1 hs).1
  mentioned s hs t ht k hk := by
    obtain ⟨hne, s', hs', ht⟩ := mem_sets_inlineInto_cases hused hs ht
    obtain ⟨hfree, hv⟩ := h.mentioned s' hs' t ht k hk
    refine ⟨hfree, ?_⟩
    by_cases hkslot : k = slot
    · exact .inr (hkslot ▸ hne)
    · exact hv.imp_left fun hv => free_inlineInto_iff.2 ⟨hv, hkslot⟩
  within k := (mentionedWithin_inlineInto_iff h.named hused).trans (h.within k)

/-- Dissolving slots leaves none of them as a value by itself. -/
theorem dissolved_inlineAll (hover : u.Over Named) (hclosed : u.Closed) (steps : Nat) :
    Dissolved u (inlineAll steps u) :=
  inlineAll_induct (I := Dissolved u)
    ⟨hover, fun _ h => h, fun s hs t ht k hk => ⟨hclosed s hs t ht k hk, .inl (hclosed s hs t ht k hk)⟩,
      fun _ => Iff.rfl⟩
    (fun _ _ _ hused h => h.inlineInto hused) steps

/-! ## All together -/

section Merge

variable (hnamed : v.Over Named) (hm : v.mergeBy alike = .ok m)

include hnamed hm

/-- **What is left to be mentioned after merging.** All slots mentioned were there to be mentioned
when slots had been united. Those that are replaced have been dissolved since, and are mentioned
within longer values alone. -/
theorem exists_united_closed :
    ∃ u, v.united alike = .ok u ∧ u.Closed ∧
      (∀ s, m.Free s → ∀ t ∈ m.sets s, ∀ k ∈ t.slots, u.Free k ∧ (m.Free k ∨ t ≠ .ofSlot k)) ∧
      ∀ k, m.MentionedWithin k ↔ u.MentionedWithin k := by
  obtain ⟨u, steps, hu, hm⟩ := exists_united hm
  have h := dissolved_inlineAll (over_united hnamed hu) (closed_united hu) steps
  have hsets {s : Slot} (hs : m.Free s) : m.sets s = (inlineAll steps u).sets s :=
    sets_compressAll_of_free hm ((free_compressAll_iff hm).1 hs)
  refine ⟨u, hu, closed_united hu, fun s hs t ht k hk => ?_, fun k => ?_⟩
  · rw [free_compressAll_iff hm]
    exact h.mentioned s ((free_compressAll_iff hm).1 hs) t (hsets hs ▸ ht) k hk
  · rw [← h.within k]
    refine exists_congr fun s => ?_
    rw [free_compressAll_iff hm]
    refine and_congr_right fun hs => ?_
    rw [hsets ((free_compressAll_iff hm).2 hs)]

/-- **Merged slot values are closed exactly if no slot mentioned within a longer value is replaced
in the end.** -/
theorem closed_iff : m.Closed ↔ ∀ k, m.MentionedWithin k → m.Free k := by
  obtain ⟨u, -, -, hmentioned, -⟩ := exists_united_closed hnamed hm
  constructor
  · rintro hclosed k ⟨s, hs, t, ht, hk, -⟩
    exact hclosed s hs t ht k hk
  · intro hwithin s hs t ht k hk
    rcases (hmentioned s hs t ht k hk).2 with hfree | hne
    · exact hfree
    · exact hwithin k ⟨s, hs, t, ht, hk, hne⟩

/-- Merged slot values are closed if each value is literal or a single slot. -/
theorem closed_of_flat (hflat : v.Flat) : m.Closed := by
  obtain ⟨u, hu, -, -, hwithin⟩ := exists_united_closed hnamed hm
  rw [closed_iff hnamed hm]
  intro k hk
  obtain ⟨s, -, t, ht, hk, hne⟩ := (hwithin k).1 hk
  rcases persists_flat.united hflat hu s t ht with hfree | ⟨k', rfl⟩
  · rw [Template.slots_eq_nil hfree] at hk
    cases hk
  · obtain rfl := List.mem_singleton.1 hk
    exact absurd rfl hne

end Merge

end SlotValues

end GrammarInduction
