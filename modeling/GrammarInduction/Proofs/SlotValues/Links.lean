import GrammarInduction.Proofs.SlotValues.Reduced

/-!
# What a turn does to the replacements

A turn writes to the table of replacements in few ways. A slot that is replaced already keeps what
replaces it, unless it has the turn itself and its chain is compressed. A slot that comes to be
replaced goes to the slot that has the turn, or has the turn itself and goes to one of the values that
it has gathered (`Gathered`, `Worked`).

* `gathered_gathering`: what gathering does to the replacements and to the sets of other slots.
* `turn_cases`: a turn compresses the chain of a replaced slot, or has done its work (`Worked`).
-/

namespace GrammarInduction

namespace SlotValues

variable {v v' : SlotValues} {slot target later s k : Slot} {slots : List Slot}
  {own : OrderedSet Template} {state state' : SlotValues × List Slot} {w w' : Work}
  {alike : OrderedSet Template → OrderedSet Template → Bool}

/-! ## Gathering -/

/-- What gathering does to the state in which the slot at work has begun. -/
structure Gathered (state : SlotValues × List Slot) (slot : Slot) (w : Work) : Prop where
  kept : ∀ s, ¬ state.1.Free s → w.all.replacement? s = state.1.replacement? s
  link : ∀ s k, state.1.Free s → w.all.replacement? s = some k →
    s ≠ slot ∧ k = slot ∧ s ∈ w.updated ∨ s = slot ∧ .ofSlot k ∈ w.own.toList
  sets : ∀ s, s ≠ slot → w.all.Free s → w.all.getD s = state.1.getD s
  known : ∀ s ∈ state.2, s ∈ w.updated
  updated : ∀ s ∈ w.updated, s ∈ state.2 ∨ ¬ w.all.Free s ∨ ¬ w.all.Free slot
  idle : w = untouched state slot ∨ w.changed = true ∧ ∃ s, state.1.Free s ∧ ¬ w.all.Free s

namespace Gathered

theorem free (h : Gathered state slot w) (hs : w.all.Free s) : state.1.Free s :=
  Decidable.byContradiction fun hs' => hs' ((h.kept s hs').symm.trans hs)

/-- A slot comes to be replaced. -/
theorem replace (h : Gathered state slot w) (hs : w.all.Free s) {own : OrderedSet Template}
    (hown : ∀ t ∈ w.own.toList, t ∈ own.toList)
    (hlink : s ≠ slot ∧ target = slot ∨ s = slot ∧ .ofSlot target ∈ own.toList)
    {updated : List Slot} (hknown : ∀ s ∈ w.updated, s ∈ updated) (hnew : s ≠ slot → s ∈ updated)
    (hupdated : ∀ s' ∈ updated, s' = s ∨ s = slot ∨ s' ∈ w.updated) :
    Gathered state slot ⟨w.all.replace s target, own, updated, true⟩ where
  kept s' hs' := by
    rw [← h.kept s' hs', replacement?_replace_eq, if_neg]
    rintro rfl
    exact hs' (h.free hs)
  link s' k hs' hk := by
    rw [replacement?_replace_eq] at hk
    split at hk
    next heq =>
      subst heq
      obtain rfl := Option.some.inj hk
      exact hlink.imp_left fun ⟨hne, heq⟩ => ⟨hne, heq, hnew hne⟩
    · exact (h.link s' k hs' hk).imp (fun ⟨hne, heq, hmem⟩ => ⟨hne, heq, hknown s' hmem⟩)
        fun ⟨heq, hmem⟩ => ⟨heq, hown _ hmem⟩
  sets s' hne hs' := by
    obtain ⟨hss', hs'⟩ := free_of_free_replace hs'
    rw [getD_replace, if_neg hss', h.sets s' hne hs']
  known s' hs' := hknown s' (h.known s' hs')
  updated s' hs' := by
    have hgone {s' : Slot} (hs' : ¬ w.all.Free s') : ¬ (w.all.replace s target).Free s' :=
      fun hfree => hs' (free_of_free_replace hfree).2
    have hself : ¬ (w.all.replace s target).Free s := fun hfree => (free_of_free_replace hfree).1 rfl
    rcases hupdated s' hs' with rfl | rfl | hs'
    · exact .inr (.inl hself)
    · exact .inr (.inr hself)
    · exact (h.updated s' hs').imp_right (Or.imp hgone hgone)
  idle := .inr ⟨rfl, s, h.free hs, fun hfree => (free_of_free_replace hfree).1 rfl⟩

theorem absorb (h : Gathered state slot w) (hne : later ≠ slot) :
    Gathered state slot (absorb alike slot w later) := by
  refine absorb_induct (I := Gathered state slot) h ?takeIn ?point
  case takeIn =>
    intro hfree _
    exact h.replace hfree (fun t ht => OrderedSet.mem_insertAll_of_mem ht) (.inl ⟨hne, rfl⟩)
      (fun _ hs => .tail _ hs) (fun _ => .head _) fun s hs => (List.mem_cons.1 hs).imp_right .inr
  case point =>
    intro w hw hfree hown
    exact hw.replace hfree (fun _ ht => ht) (.inr ⟨rfl, hown ▸ .head _⟩) (fun _ hs => .tail _ hs)
      (fun hne => absurd rfl hne) fun _ _ => .inr (.inl rfl)

end Gathered

theorem gathered_untouched (state : SlotValues × List Slot) (slot : Slot) :
    Gathered state slot (untouched state slot) where
  kept _ _ := rfl
  link _ _ hs hk := absurd hs (not_free_of_replacement hk)
  sets _ _ _ := rfl
  known _ hs := hs
  updated _ hs := .inl hs
  idle := .inl rfl

theorem gathered_gathering (alike : OrderedSet Template → OrderedSet Template → Bool)
    (hnodup : slots.Nodup) (state : SlotValues × List Slot) (slot : Slot) :
    Gathered state slot (gathering alike slots state slot) :=
  gathering_induct (gathered_untouched state slot) fun _ hw _ hlater =>
    hw.absorb (ne_of_mem_laterThan hnodup hlater)

theorem free_of_free_absorb : (absorb alike slot w later).all.Free s → w.all.Free s :=
  absorb_induct (I := fun w' => w'.all.Free s → w.all.Free s) id
    (fun _ _ hs => (free_of_free_replace hs).2) fun _ ih _ _ hs => ih (free_of_free_replace hs).2

/-- A slot with similar values is taken in. -/
theorem not_free_of_alike (hfree : w.all.Free later) (halike : alike w.own (w.all.getD later) = true) :
    ¬ (absorb alike slot w later).all.Free later := by
  unfold absorb
  simp only [isReplaced_eq_false_iff.2 hfree, halike, Bool.not_false, Bool.and_self, if_true]
  split
  · exact fun hs => (free_of_free_replace (free_of_free_replace hs).2).1 rfl
  · exact fun hs => (free_of_free_replace hs).1 rfl

/-! ## The whole turn -/

theorem replacement?_conclude (v : SlotValues) (slot : Slot) (own : OrderedSet Template) :
    (∃ target, own.toList = [.ofSlot target] ∧
        (conclude v slot own).replacement? slot = some target) ∨
      (∀ target, own.toList ≠ [.ofSlot target]) ∧
        (conclude v slot own).replacement? slot = v.replacement? slot := by
  unfold conclude
  split
  next target htarget =>
    exact .inl ⟨target, only_single?_eq_some_iff.1 htarget, replacement?_replace v slot target⟩
  next hnone =>
    refine .inr ⟨fun target htarget => ?_, rfl⟩
    rw [only_single?_eq_some_iff.2 htarget] at hnone
    cases hnone

/-- What is in a list to which a slot may have been added. -/
theorem mem_ite_cons {added : Bool} {dirty : List Slot} :
    s ∈ (if added then slot :: dirty else dirty) ↔ s = slot ∧ added = true ∨ s ∈ dirty := by
  cases added <;> simp

/-- What a mention of a slot becomes when replacements are followed. -/
def image (v : SlotValues) (k : Slot) : Slot := (v.replacement? k).getD k

theorem image_of_free (h : v.Free k) : v.image k = k := by
  rw [image, h]
  rfl

theorem image_of_replacement (h : v.replacement? s = some k) : v.image s = k := by
  rw [image, h]
  rfl

/-- The slots mentioned in what remains are those mentioned in what was gathered, with replacements
followed. -/
theorem exists_image_of_mem_remaining {later : List Slot} {t : Template}
    (ht : t ∈ (remaining later slot w).toList) (hk : k ∈ t.slots) :
    ∃ t' ∈ w.own.toList, ∃ k' ∈ t'.slots, w.all.image k' = k := by
  obtain ⟨t', ht', rfl⟩ := mem_of_mem_remaining ht
  obtain ⟨k', hk', heq⟩ := Template.mem_slots_rename.1 hk
  exact ⟨t', ht', k', hk', heq⟩

theorem exists_image_of_ofSlot_mem_remaining {later : List Slot}
    (hk : .ofSlot k ∈ (remaining later slot w).toList) :
    ∃ k', .ofSlot k' ∈ w.own.toList ∧ w.all.image k' = k := by
  obtain ⟨t', ht', heq⟩ := mem_of_mem_remaining hk
  obtain ⟨k', rfl, hk'⟩ := eq_ofSlot_of_rename heq.symm
  exact ⟨k', ht', hk'.symm⟩

/-- What the turn of a slot that is not replaced does, `w` being what the slot has gathered. -/
structure Worked (slots : List Slot) (state : SlotValues × List Slot) (slot : Slot) (w : Work)
    (state' : SlotValues × List Slot) : Prop where
  gathered : Gathered state slot w
  outcome : state' = (conclude w.all slot (remaining (laterThan slots slot) slot w),
    if reduces slot (laterThan slots slot) w then slot :: w.updated else w.updated)

namespace Worked

variable (h : Worked slots state slot w state')

include h

theorem getD_self : state'.1.getD slot = remaining (laterThan slots slot) slot w := by
  rw [h.outcome]
  exact (getD_conclude _ _ _ _).trans (if_pos rfl)

theorem replacement?_ne (hs : s ≠ slot) : state'.1.replacement? s = w.all.replacement? s := by
  rw [h.outcome]
  exact replacement?_conclude_ne hs

theorem mem_updated_iff :
    s ∈ state'.2 ↔ s = slot ∧ reduces slot (laterThan slots slot) w = true ∨ s ∈ w.updated := by
  rw [h.outcome]
  exact mem_ite_cons

/-- After the turn the slot is free only if it was so before and its set is no single slot. -/
theorem free_self (hfree : state'.1.Free slot) :
    w.all.Free slot ∧ ∀ k, state'.1.sets slot ≠ [.ofSlot k] := by
  rw [sets, h.getD_self]
  rw [Free, h.outcome] at hfree
  dsimp only at hfree
  rcases replacement?_conclude w.all slot (remaining (laterThan slots slot) slot w) with
    ⟨target, -, heq⟩ | ⟨hnone, heq⟩
  · rw [heq] at hfree
    cases hfree
  · exact ⟨heq.symm.trans hfree, hnone⟩

theorem free_gathered (hs : state'.1.Free s) : w.all.Free s := by
  by_cases heq : s = slot
  · subst heq
    exact (h.free_self hs).1
  · rwa [Free, ← h.replacement?_ne heq]

theorem free (hs : state'.1.Free s) : state.1.Free s := h.gathered.free (h.free_gathered hs)

theorem getD_ne (hne : s ≠ slot) (hs : state'.1.Free s) : state'.1.getD s = state.1.getD s := by
  rw [← h.gathered.sets s hne (h.free_gathered hs), h.outcome]
  exact (getD_conclude _ _ _ _).trans (if_neg hne.symm)

theorem kept (hslot : state.1.Free slot) (hs : ¬ state.1.Free s) :
    state'.1.replacement? s = state.1.replacement? s := by
  have hne : s ≠ slot := fun heq => hs (heq ▸ hslot)
  rw [h.replacement?_ne hne, h.gathered.kept s hs]

/-- A slot that comes to be replaced goes to the slot at work, or is the slot at work and goes to one
of its values. -/
theorem link (hs : state.1.Free s) (hk : state'.1.replacement? s = some k) :
    s ∈ state'.2 ∧ (k = slot ∨
      s = slot ∧ ∃ k', .ofSlot k' ∈ w.own.toList ∧ (k = k' ∨ k = w.all.image k')) := by
  by_cases hne : s = slot
  · subst hne
    have hmem (hreduces : reduces s (laterThan slots s) w = true) : s ∈ state'.2 :=
      h.mem_updated_iff.2 (.inl ⟨rfl, hreduces⟩)
    have hconclude := hk
    rw [h.outcome] at hconclude
    rcases replacement?_conclude w.all s (remaining (laterThan slots s) s w) with
      ⟨target, hown, heq⟩ | ⟨-, heq⟩
    · obtain rfl : target = k := Option.some.inj (heq.symm.trans hconclude)
      have hleft : .ofSlot target ∈ (remaining (laterThan slots s) s w).toList := hown ▸ .head _
      obtain ⟨k', hk', himage⟩ := exists_image_of_ofSlot_mem_remaining hleft
      refine ⟨hmem ?_, .inr ⟨rfl, k', hk', .inr himage.symm⟩⟩
      simp [reduces, only_single?_eq_some_iff.2 hown]
    · have hk : w.all.replacement? s = some k := heq.symm.trans hconclude
      refine ⟨hmem ?_, .inr ⟨rfl, k, ?_, .inl rfl⟩⟩
      · rcases h.gathered.idle with rfl | ⟨hchanged, -⟩
        · exact absurd hs (not_free_of_replacement hk)
        · simp [reduces, hchanged]
      · exact ((h.gathered.link s k hs hk).resolve_left fun hne => hne.1 rfl).2
  · rw [h.replacement?_ne hne] at hk
    obtain ⟨-, rfl, hmem⟩ := (h.gathered.link s k hs hk).resolve_right fun heq => hne heq.1
    exact ⟨h.mem_updated_iff.2 (.inr hmem), .inl rfl⟩

/-- If no slot comes to be replaced, the slot at work has gathered nothing. -/
theorem idle (hquiet : ∀ s, state.1.Free s → state'.1.Free s) :
    w = untouched state slot := by
  refine h.gathered.idle.resolve_right fun ⟨_, s, hs, hgone⟩ => ?_
  exact hgone (h.free_gathered (hquiet s hs))

end Worked

/-- **What a turn does.** It compresses the chain of a replaced slot, or lets a slot that is not
replaced gather values and give up some. -/
theorem turn_cases (hnodup : slots.Nodup) (ht : turn alike slots state slot = .ok state') :
    (∃ target last, state.1.replacement? slot = some target ∧
      state.1.chainEnd? slot slots.length target = some last ∧
      state' = (state.1.replace slot last,
        if state.1.isReplaced target then slot :: state.2 else state.2)) ∨
    state.1.Free slot ∧ Worked slots state slot (gathering alike slots state slot) state' := by
  rcases turn_eq_ok ht with ⟨r, hr, hgone, rfl⟩ | ⟨hfree, w, rfl, houtcome⟩
  · rcases compress_eq_ok hr with ⟨hfree, -⟩ | ⟨target, last, htarget, hlast, rfl⟩
    · exact absurd hfree hgone
    · exact .inl ⟨target, last, htarget, hlast, rfl⟩
  · exact .inr ⟨hfree, gathered_gathering alike hnodup state slot, houtcome⟩

theorem worked_of_turn (hnodup : slots.Nodup) (ht : turn alike slots state slot = .ok state')
    (hfree : state.1.Free slot) :
    Worked slots state slot (gathering alike slots state slot) state' := by
  rcases turn_cases hnodup ht with ⟨_, _, htarget, -, -⟩ | ⟨-, hworked⟩
  · exact absurd hfree (not_free_of_replacement htarget)
  · exact hworked

/-- A slot that is replaced stays so. -/
theorem free_of_free_turn (hnodup : slots.Nodup) (ht : turn alike slots state slot = .ok state')
    (hs : state'.1.Free s) : state.1.Free s := by
  rcases turn_cases hnodup ht with ⟨_, _, -, -, rfl⟩ | ⟨-, hworked⟩
  · exact (free_of_free_replace hs).2
  · exact hworked.free hs

/-- A turn leaves the sets of the other slots that are not replaced alone. -/
theorem getD_turn_of_ne (hnodup : slots.Nodup) (ht : turn alike slots state slot = .ok state')
    (hne : s ≠ slot) (hs : state'.1.Free s) : state'.1.getD s = state.1.getD s := by
  rcases turn_cases hnodup ht with ⟨_, _, -, -, rfl⟩ | ⟨-, hworked⟩
  · rw [getD_replace, if_neg (free_of_free_replace hs).1]
  · exact hworked.getD_ne hne hs

end SlotValues

end GrammarInduction
