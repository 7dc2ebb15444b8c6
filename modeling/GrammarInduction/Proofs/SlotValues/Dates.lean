import GrammarInduction.Proofs.SlotValues.Links

/-!
# Dates of slots

To tell how long merging can go on, slots are given dates. A slot that is not replaced has the
present date, and a replaced slot keeps the date it had when it was replaced. So a chain of
replacements leads to later and later dates, but for a slot replaced just now, whose target may be an
earlier one: such a slot has its turn in the next round, and is then pointed at a slot that is not
replaced (`Dated.turn`).

What a slot mentions moves on to later dates when replacements are followed. The slots that still
change mention nothing that is dated at a bound or before it (`Tended`), and no slot refers to more
keys than before (`card_references_remaining`).
-/

namespace GrammarInduction

namespace SlotValues

variable {v v' : SlotValues} {slot target s k : Slot} {slots later rest : List Slot}
  {own : OrderedSet Template} {state state' : SlotValues × List Slot} {w : Work}
  {alike : OrderedSet Template → OrderedSet Template → Bool}
  {date : Slot → Nat} {now bound bound' limit : Nat}

/-! ## Dates along chains of replacements -/

/-- Dates while a round is under way, with the slots that still have their turn in it. A slot replaced
in the round still has the present date. -/
structure Dated (date : Slot → Nat) (now bound : Nat) (rest : List Slot)
    (state : SlotValues × List Slot) : Prop where
  free : ∀ s, state.1.Free s → date s = now
  gone : ∀ s, ¬ state.1.Free s → date s = now → s ∈ state.2
  link : ∀ s k, state.1.replacement? s = some k →
    date s < date k ∨ bound < date k ∧ (s ∈ rest ∨ date s = now ∧ s ∈ state.2)

namespace Dated

/-- Following replacements goes on to later dates, or to a date past the bound. -/
theorem lt_image (h : Dated date now bound rest state) (hk : bound < date k) :
    bound < date (state.1.image k) := by
  by_cases hfree : state.1.Free k
  · rwa [image_of_free hfree]
  obtain ⟨next, hnext⟩ := exists_of_not_free hfree
  rw [image_of_replacement hnext]
  rcases h.link k next hnext with hlt | ⟨hlt, -⟩
  · exact Nat.lt_trans hk hlt
  · exact hlt

variable (hbound : bound < now)

include hbound

/-- The same for the replacements that a slot at work has made. -/
theorem lt_image_gathered (h : Dated date now bound rest state) (hw : Gathered state slot w)
    (hslot : state.1.Free slot) (hown : SetOver (bound < date ·) w.own) (hk : bound < date k) :
    bound < date (w.all.image k) := by
  by_cases hfree : state.1.Free k
  · by_cases hstill : w.all.Free k
    · rwa [image_of_free hstill]
    obtain ⟨next, hnext⟩ := exists_of_not_free hstill
    rw [image_of_replacement hnext]
    rcases hw.link k next hfree hnext with ⟨-, rfl, -⟩ | ⟨-, hmem⟩
    · rwa [h.free next hslot]
    · exact Template.over_ofSlot_iff.1 (hown _ hmem)
  · have heq : w.all.image k = state.1.image k := by rw [image, image, hw.kept k hfree]
    exact heq ▸ h.lt_image hk

theorem worked (h : Dated date now bound (slot :: rest) state) (hslot : state.1.Free slot)
    (hw : Worked slots state slot w state') (hown : SetOver (bound < date ·) w.own) :
    Dated date now bound rest state' where
  free s hs := h.free s (hw.free hs)
  gone s hs hnow := by
    by_cases hfree : state.1.Free s
    · obtain ⟨k, hk⟩ := exists_of_not_free hs
      exact (hw.link hfree hk).1
    · exact hw.mem_updated_iff.2 (.inr (hw.gathered.known s (h.gone s hfree hnow)))
  link s k hk := by
    by_cases hfree : state.1.Free s
    · obtain ⟨hmem, hk⟩ := hw.link hfree hk
      refine .inr ⟨?_, .inr ⟨h.free s hfree, hmem⟩⟩
      rcases hk with rfl | ⟨-, k', hk', hk⟩
      · rwa [h.free k hslot]
      · have hlt : bound < date k' := Template.over_ofSlot_iff.1 (hown _ hk')
        rcases hk with rfl | rfl
        · exact hlt
        · exact h.lt_image_gathered hbound hw.gathered hslot hown hlt
    · have hne : s ≠ slot := fun heq => hfree (heq ▸ hslot)
      rw [hw.kept hslot hfree] at hk
      refine (h.link s k hk).imp_right (And.imp_right (Or.imp ?_ ?_))
      · exact fun hmem => (List.mem_cons.1 hmem).resolve_left hne
      · exact And.imp_right fun hmem => hw.mem_updated_iff.2 (.inr (hw.gathered.known s hmem))

/-- **A turn keeps dates in order.** The slots that the slot at work has gathered mention nothing that
is dated at the bound or before it. -/
theorem turn (hnodup : slots.Nodup) (hle : ∀ s, date s ≤ now)
    (h : Dated date now bound (slot :: rest) state)
    (hown : state.1.Free slot → SetOver (bound < date ·) (gathering alike slots state slot).own)
    (ht : turn alike slots state slot = .ok state') : Dated date now bound rest state' := by
  rcases turn_cases hnodup ht with ⟨target, last, htarget, hlast, rfl⟩ | ⟨hslot, hworked⟩
  · have hslot : ¬ state.1.Free slot := not_free_of_replacement htarget
    have hlink {s k : Slot} (hk : (state.1.replace slot last).replacement? s = some k) :
        s = slot ∧ k = last ∨ s ≠ slot ∧ state.1.replacement? s = some k := by
      rw [replacement?_replace_eq] at hk
      split at hk
      next heq => exact .inl ⟨heq.symm, (Option.some.inj hk).symm⟩
      next hne => exact .inr ⟨Ne.symm hne, hk⟩
    refine ⟨fun s hs => h.free s (free_of_free_replace hs).2, fun s hs hnow => ?_, fun s k hk => ?_⟩
    · rw [free_replace_iff hslot] at hs
      exact mem_ite_cons.2 (.inr (h.gone s hs hnow))
    · rcases hlink hk with ⟨rfl, rfl⟩ | ⟨hne, hk⟩
      · have hnow : date k = now := h.free k (free_chainEnd hlast)
        rcases Nat.lt_or_eq_of_le (hle s) with hlt | heq
        · exact .inl (hnow ▸ hlt)
        · exact .inr ⟨hnow ▸ hbound, .inr ⟨heq, mem_ite_cons.2 (.inr (h.gone s hslot heq))⟩⟩
      · refine (h.link s k hk).imp_right (And.imp_right (Or.imp ?_ (And.imp_right ?_)))
        · exact fun hmem => (List.mem_cons.1 hmem).resolve_left hne
        · exact fun hmem => mem_ite_cons.2 (.inr hmem)
  · exact h.worked hbound hslot hworked (hown hslot)

end Dated

/-! ## References to keys -/

/-- The keys that are values of a set by themselves. -/
def references (slots : List Slot) (own : OrderedSet Template) : Finset Slot :=
  ((slotMembers own).filter fun s => slots.contains s).toFinset

theorem mem_references : k ∈ references slots own ↔ .ofSlot k ∈ own.toList ∧ k ∈ slots := by
  simp [references, mem_slotMembers]

theorem references_subset (slots : List Slot) (own : OrderedSet Template) :
    references slots own ⊆ slots.toFinset :=
  fun _ hk => List.mem_toFinset.2 (mem_references.1 hk).2

/-- Following replacements makes no references: what refers to a key has done so before. -/
theorem card_references_remaining (hkeys : KeysAre slots w.all) (later : List Slot) (slot : Slot) :
    (references slots (remaining later slot w)).card ≤ (references slots w.own).card := by
  have hsub : references slots (remaining later slot w) ⊆
      (references slots w.own).image w.all.image := by
    intro k hk
    obtain ⟨hmem, hkey⟩ := mem_references.1 hk
    obtain ⟨k', hk', rfl⟩ := exists_image_of_ofSlot_mem_remaining hmem
    refine Finset.mem_image_of_mem _ (mem_references.2 ⟨hk', ?_⟩)
    by_cases hfree : w.all.Free k'
    · rwa [image_of_free hfree] at hkey
    · exact hkeys.replaced k' hfree
  exact (Finset.card_le_card hsub).trans Finset.card_image_le

/-! ## What the slots that change mention -/

/-- The set of a slot is not a slot alone. -/
def Divided (v : SlotValues) (s : Slot) : Prop := ∀ k, v.sets s ≠ [.ofSlot k]

/-- The slot at work has taken in nothing new, and has not been replaced by it. -/
structure Steady (state : SlotValues × List Slot) (slot : Slot) (w : Work) : Prop where
  own : w.own = state.1.getD slot
  free : w.all.Free slot

/-- While a round is under way: what is mentioned in the sets of the slots that still have their turn
is dated after one bound, and what is mentioned in the sets of those that have changed after another.
None of them refers to more than a number of keys. -/
structure Tended (slots : List Slot) (date : Slot → Nat) (bound bound' limit : Nat)
    (rest : List Slot) (state : SlotValues × List Slot) : Prop where
  due : ∀ s ∈ rest, state.1.Free s →
    SetOver (bound < date ·) (state.1.getD s) ∧ (references slots (state.1.getD s)).card ≤ limit
  done : ∀ s ∈ state.2, state.1.Free s → SetOver (bound' < date ·) (state.1.getD s) ∧
    (references slots (state.1.getD s)).card ≤ limit ∧ state.1.Divided s

namespace Tended

theorem worked (h : Tended slots date bound bound' limit (slot :: rest) state)
    (hle : bound ≤ bound') (hkeys : KeysAre slots w.all) (hw : Worked slots state slot w state')
    (hsteady : Steady state slot w) (hslot : state.1.Free slot)
    (himage : ∀ k, bound < date k → bound' < date (w.all.image k)) :
    Tended slots date bound bound' limit rest state' := by
  obtain ⟨hdue, hcard⟩ := h.due slot List.mem_cons_self hslot
  have hself : SetOver (bound' < date ·) (state'.1.getD slot) ∧
      (references slots (state'.1.getD slot)).card ≤ limit := by
    rw [hw.getD_self]
    refine ⟨fun t ht k hk => ?_, (card_references_remaining hkeys _ _).trans (hsteady.own ▸ hcard)⟩
    obtain ⟨t', ht', k', hk', rfl⟩ := exists_image_of_mem_remaining ht hk
    exact himage k' (hdue t' (hsteady.own ▸ ht') k' hk')
  refine ⟨fun s hs hfree => ?_, fun s hs hfree => ?_⟩
  · by_cases hne : s = slot
    · subst hne
      exact ⟨fun t ht k hk => Nat.lt_of_le_of_lt hle (hself.1 t ht k hk), hself.2⟩
    · rw [hw.getD_ne hne hfree]
      exact h.due s (.tail _ hs) (hw.free hfree)
  · by_cases hne : s = slot
    · subst hne
      exact ⟨hself.1, hself.2, (hw.free_self hfree).2⟩
    · have hmem : s ∈ state.2 := by
        have hmem := (hw.mem_updated_iff.1 hs).resolve_left fun heq => hne heq.1
        rcases hw.gathered.updated s hmem with hmem | hgone | hgone
        · exact hmem
        · exact absurd (hw.free_gathered hfree) hgone
        · exact absurd hsteady.free hgone
      rw [Divided, sets, hw.getD_ne hne hfree]
      exact h.done s hmem (hw.free hfree)

/-- **A turn keeps the bounds.** The slot at work has taken in nothing new, and following replacements
goes from past the first bound to past the second one. -/
theorem turn (hnodup : slots.Nodup) (hle : bound ≤ bound') (hkeys : KeysAre slots state.1)
    (hslot : slot ∈ slots) (h : Tended slots date bound bound' limit (slot :: rest) state)
    (hsteady : state.1.Free slot → Steady state slot (gathering alike slots state slot))
    (himage : state.1.Free slot → ∀ k, bound < date k →
      bound' < date ((gathering alike slots state slot).all.image k))
    (ht : turn alike slots state slot = .ok state') :
    Tended slots date bound bound' limit rest state' := by
  rcases turn_cases hnodup ht with ⟨target, last, htarget, -, rfl⟩ | ⟨hfree, hworked⟩
  · have hkept {s : Slot} (hs : (state.1.replace slot last).Free s) :
        slot ≠ s ∧ state.1.Free s ∧ (state.1.replace slot last).getD s = state.1.getD s := by
      obtain ⟨hne, hfree⟩ := free_of_free_replace hs
      exact ⟨hne, hfree, by rw [getD_replace, if_neg hne]⟩
    refine ⟨fun s hs hfree => ?_, fun s hs hfree => ?_⟩
    · obtain ⟨-, hfree, heq⟩ := hkept hfree
      dsimp only
      rw [heq]
      exact h.due s (.tail _ hs) hfree
    · obtain ⟨hne, hfree, heq⟩ := hkept hfree
      have hmem : s ∈ state.2 := (mem_ite_cons.1 hs).resolve_left fun heq => hne heq.1.symm
      dsimp only
      rw [Divided, sets, heq]
      exact h.done s hmem hfree
  · exact h.worked hle (hkeys.gathering alike hslot) hworked (hsteady hfree) hfree (himage hfree)

end Tended

/-- After its turn a slot that is not replaced is divided, and other slots stay so. -/
theorem divided_turn (hnodup : slots.Nodup) (ht : turn alike slots state slot = .ok state')
    (hs : state'.1.Free s) (h : s ≠ slot → state.1.Free s → state.1.Divided s) :
    state'.1.Divided s := by
  have hfree := free_of_free_turn hnodup ht hs
  by_cases hne : s = slot
  · subst hne
    exact ((worked_of_turn hnodup ht hfree).free_self hs).2
  · rw [Divided, sets, getD_turn_of_ne hnodup ht hne hs]
    exact h hne hfree

section Exact

variable (hexact : ∀ a b, alike a b = true → a.sameMembers b = true)

include hexact

/-- By a test of equality a slot takes in nothing new. -/
theorem own_absorb_of_exact (hw : w.Over Named) (later : Slot) :
    (absorb alike slot w later).own = w.own := by
  refine absorb_induct (I := fun w' => w'.own = w.own) rfl (fun _ halike => ?_) fun _ hown _ _ => hown
  exact insertAll_of_sameMembers hw.own (hw.all.values later) (hexact _ _ halike)

theorem own_gathering_of_exact (hover : state.1.Over Named) (hnamed : ∀ s ∈ slots, Named s)
    (hslot : slot ∈ slots) : (gathering alike slots state slot).own = state.1.getD slot := by
  refine (gathering_induct (I := fun w => w.Over Named ∧ w.own = state.1.getD slot)
    ⟨⟨hover, hover.values slot⟩, rfl⟩ ?_).2
  rintro w ⟨hw, hown⟩ later hlater
  exact ⟨hw.absorb (hnamed slot hslot) (hnamed later (mem_of_mem_laterThan hlater)),
    (own_absorb_of_exact hexact hw later).trans hown⟩

theorem Steady.absorb (h : Steady state slot w) (hw : w.Over Named) {later : Slot}
    (hne : later ≠ slot) (hdivided : state.1.Divided slot) :
    Steady state slot (SlotValues.absorb alike slot w later) := by
  refine absorb_induct (I := Steady state slot) h ?takeIn ?point
  case takeIn =>
    intro _ halike
    have hsame := insertAll_of_sameMembers hw.own (hw.all.values later) (hexact _ _ halike)
    refine ⟨hsame.trans h.own, ?_⟩
    rw [Free, replacement?_replace_eq, if_neg hne]
    exact h.free
  case point =>
    intro w hw _ honly
    rw [hw.own] at honly
    exact absurd honly (hdivided later)

/-- By a test of equality, unless its set is a slot alone, a slot is not replaced by what it takes
in. -/
theorem steady_of_exact (hnodup : slots.Nodup) (hover : state.1.Over Named)
    (hnamed : ∀ s ∈ slots, Named s) (hslot : slot ∈ slots) (hfree : state.1.Free slot)
    (hdivided : state.1.Divided slot) : Steady state slot (gathering alike slots state slot) := by
  refine (gathering_induct (I := fun w => w.Over Named ∧ Steady state slot w)
    ⟨⟨hover, hover.values slot⟩, rfl, hfree⟩ ?_).2
  rintro w ⟨hw, hsteady⟩ later hlater
  exact ⟨hw.absorb (hnamed slot hslot) (hnamed later (mem_of_mem_laterThan hlater)),
    hsteady.absorb hexact hw (ne_of_mem_laterThan hnodup hlater) hdivided⟩

/-- By a test of equality the later slots that are not replaced when a slot has gathered its values have
other values than that slot. -/
theorem not_alike_of_free_gathering (hnodup : slots.Nodup) (hover : state.1.Over Named)
    (hnamed : ∀ s ∈ slots, Named s) (hslot : slot ∈ slots) (hk : k ∈ laterThan slots slot)
    (hfree : (gathering alike slots state slot).all.Free k) :
    alike (state.1.getD slot) (state.1.getD k) = false := by
  obtain ⟨before, after, hsplit⟩ := List.append_of_mem hk
  obtain ⟨w, hw⟩ : ∃ w, w = before.foldl (absorb alike slot) (untouched state slot) := ⟨_, rfl⟩
  -- When `k` is looked at, the values gathered are those of the slot, and `k` has its own ones.
  have hmid : Gathered state slot w ∧ w.Over Named ∧ w.own = state.1.getD slot := by
    rw [hw]
    refine List.foldlRecOn (motive := fun w : Work =>
      Gathered state slot w ∧ w.Over Named ∧ w.own = state.1.getD slot) before (absorb alike slot)
      ⟨gathered_untouched state slot, ⟨hover, hover.values slot⟩, rfl⟩ ?_
    rintro w ⟨hgathered, hw, hown⟩ later hlater
    have hlater : later ∈ laterThan slots slot := hsplit ▸ List.mem_append_left _ hlater
    exact ⟨hgathered.absorb (ne_of_mem_laterThan hnodup hlater),
      hw.absorb (hnamed slot hslot) (hnamed later (mem_of_mem_laterThan hlater)),
      (own_absorb_of_exact hexact hw later).trans hown⟩
  have hkept : (absorb alike slot w k).all.Free k := by
    have hmono := List.foldlRecOn (motive := fun w' : Work => w'.all.Free k →
      (absorb alike slot w k).all.Free k) after (absorb alike slot) id
      fun _ hmono _ _ hs => hmono (free_of_free_absorb hs)
    rw [gathering, hsplit, List.foldl_append, List.foldl_cons] at hfree
    exact hmono (hw ▸ hfree)
  have hset : w.all.getD k = state.1.getD k :=
    hmid.1.sets k (ne_of_mem_laterThan hnodup hk) (free_of_free_absorb hkept)
  rw [← hmid.2.2, ← hset]
  exact Bool.eq_false_iff.2 fun halike => not_free_of_alike (free_of_free_absorb hkept) halike hkept

end Exact

end SlotValues

end GrammarInduction
