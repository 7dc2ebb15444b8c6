import GrammarInduction.Proofs.SlotValues.Quiet

/-!
# The pace of merging

What is known between two rounds of merging is kept in `Paced`: dates of all slots, a bound after
which everything is dated that the slots of the next round mention, and a limit to the keys they refer
to. Each round makes progress of some kind.

* `Paced.reset`: a round in which some slot comes to be replaced leaves fewer slots that are not
  replaced, whatever it does to bound and limit.
* `Paced.steady`: by a test of equality such a round keeps bound and limit.
* `Paced.quiet`, `Paced.rise`: a quiet round keeps bound and limit, and leaves calm; after calm it
  raises the bound.
* `Paced.still`: when the bound has risen to the present, a quiet round leaves slots that are spare;
  if they were so before, it lowers the limit.
-/

namespace GrammarInduction

namespace SlotValues

variable {v : SlotValues} {slot s k : Slot} {slots dirty active : List Slot}
  {state' : SlotValues × List Slot} {alike : OrderedSet Template → OrderedSet Template → Bool}
  {date : Slot → Nat} {now bound bound' limit limit' : Nat}

/-- What is known before a round over some slots. -/
structure Paced (slots : List Slot) (date : Slot → Nat) (now bound limit : Nat) (active : List Slot)
    (v : SlotValues) : Prop where
  keys : KeysAre slots v
  known : ∀ s ∈ active, s ∈ slots
  free : ∀ s, v.Free s ↔ date s = now
  le : ∀ s, date s ≤ now
  pos : ∀ s, 0 < date s
  lt : bound < now
  few : now + v.unreplaced.length ≤ slots.length + 1
  link : ∀ s k, v.replacement? s = some k → date s < date k ∨ s ∈ active ∧ bound < date k
  mention : ∀ s ∈ active, v.Free s → SetOver (bound < date ·) (v.getD s)
  refs : v.unreplaced.length ≤ limit ∨
    ∀ s ∈ active, v.Free s → (references slots (v.getD s)).card ≤ limit
  limit_le : limit ≤ slots.length

theorem unreplaced_length_le (h : KeysAre slots v) : v.unreplaced.length ≤ slots.length :=
  h.slots ▸ List.length_filter_le _ _

theorem paced_start (hfresh : v.replacements = .empty) (hactive : ∀ s ∈ active, s ∈ v.slots) :
    Paced v.slots (fun _ => 1) 1 0 v.slots.length active v := by
  have hfree (s : Slot) : v.Free s := by rw [Free, replacement?, hfresh]; rfl
  have hkeys : KeysAre v.slots v := ⟨rfl, fun s hs => absurd (hfree s) hs⟩
  have hcount := unreplaced_length_le hkeys
  exact
    { keys := hkeys
      known := hactive
      free := fun s => iff_of_true (hfree s) rfl
      le := fun _ => Nat.le_refl _
      pos := fun _ => Nat.one_pos
      lt := Nat.one_pos
      few := by omega
      link := fun s k hk => absurd (hfree s) (not_free_of_replacement hk)
      mention := fun _ _ _ _ _ _ _ => Nat.one_pos
      refs := .inl hcount
      limit_le := Nat.le_refl _ }

namespace Paced

theorem dated (h : Paced slots date now bound limit dirty v) :
    Dated date now bound dirty (v, []) where
  free s hs := (h.free s).1 hs
  gone s hs hnow := absurd ((h.free s).2 hnow) hs
  link s k hk := (h.link s k hk).imp_right fun ⟨hmem, hlt⟩ => ⟨hlt, .inl hmem⟩

theorem card_references_le (slots : List Slot) (own : OrderedSet Template) :
    (references slots own).card ≤ slots.length :=
  (Finset.card_le_card (references_subset slots own)).trans (List.toFinset_card_le slots)

theorem tended (h : Paced slots date now bound limit dirty v) (bound' : Nat) :
    ∃ most, (v.unreplaced.length ≤ limit ∨ most = limit) ∧
      Tended slots date bound bound' most dirty (v, []) := by
  have hdone (most : Nat) (hmost : ∀ s ∈ dirty, v.Free s → (references slots (v.getD s)).card ≤ most) :
      Tended slots date bound bound' most dirty (v, []) :=
    ⟨fun s hs hfree => ⟨h.mention s hs hfree, hmost s hs hfree⟩, fun s hs => absurd hs List.not_mem_nil⟩
  rcases h.refs with hfew | hrefs
  · exact ⟨slots.length, .inl hfew, hdone _ fun s _ _ => card_references_le slots (v.getD s)⟩
  · exact ⟨limit, .inr rfl, hdone _ hrefs⟩

end Paced

/-! ## Rounds in which a slot comes to be replaced -/

/-- Dates after a round in which a slot has come to be replaced: slots that are not replaced move on
to the new present. -/
def redate (v : SlotValues) (date : Slot → Nat) (now : Nat) (s : Slot) : Nat :=
  if v.isReplaced s then date s else now + 1

theorem redate_of_free (hs : v.Free s) : redate v date now s = now + 1 := by
  rw [redate, isReplaced_eq_false_iff.2 hs]
  rfl

theorem redate_of_not_free (hs : ¬ v.Free s) : redate v date now s = date s := by
  rw [Free, ← isReplaced_eq_false_iff, Bool.not_eq_false] at hs
  rw [redate, if_pos hs]

theorem unreplaced_eq {v' : SlotValues} (h : KeysAre slots v) (h' : KeysAre slots v')
    (hfree : v'.Free = v.Free) : v'.unreplaced = v.unreplaced := by
  rw [unreplaced, unreplaced, h.slots, h'.slots]
  refine List.filter_congr fun s _ => ?_
  have := congrFun hfree s
  rw [Free, Free, ← isReplaced_eq_false_iff, ← isReplaced_eq_false_iff] at this
  cases hv : v.isReplaced s <;> cases hv' : v'.isReplaced s <;> simp_all

theorem unreplaced_length_lt {v' : SlotValues} (h : KeysAre slots v) (h' : KeysAre slots v')
    (hmono : ∀ s, v'.Free s → v.Free s) (hs : v.Free s) (hgone : ¬ v'.Free s) :
    v'.unreplaced.length < v.unreplaced.length := by
  have hsub : v'.unreplaced = v.unreplaced.filter fun s => !v'.isReplaced s := by
    rw [unreplaced, unreplaced, List.filter_filter, h.slots, h'.slots]
    refine List.filter_congr fun s _ => ?_
    have := hmono s
    rw [Free, Free, ← isReplaced_eq_false_iff, ← isReplaced_eq_false_iff] at this
    cases hv : v.isReplaced s <;> cases hv' : v'.isReplaced s <;> simp_all
  rw [hsub, List.length_filter_lt_length_iff_exists]
  refine ⟨s, mem_unreplaced_iff.2 ⟨h.slots ▸ h'.replaced s hgone, hs⟩, ?_⟩
  rw [Free, ← isReplaced_eq_false_iff, Bool.not_eq_false] at hgone
  simp [hgone]

namespace Paced

variable (h : Paced slots date now bound limit dirty v) (hnodup : slots.Nodup)
  (hrun : dirty.foldlM (turn alike slots) (v, []) = .ok state')
  (hactive : ∀ s, s ∈ active ↔ s ∈ slots ∧ s ∈ state'.2)

omit hnodup in
include h hrun in
theorem keys_of_run : KeysAre slots state'.1 :=
  foldlM_induct (I := fun mid : SlotValues × List Slot => KeysAre slots mid.1) h.keys
    (fun slot hslot _ _ hmid ht => hmid.turn (h.known slot hslot) ht) hrun

section Event

variable (hevent : ∃ s, v.Free s ∧ ¬ state'.1.Free s)

include h hnodup hrun hevent

theorem fewer_of_event : state'.1.unreplaced.length < v.unreplaced.length := by
  obtain ⟨s, hs, hgone⟩ := hevent
  exact unreplaced_length_lt h.keys (h.keys_of_run hrun) (fun s => free_of_free_run hnodup hrun) hs
    hgone

include hactive

theorem next_of_event (hdated : Dated date now bound' [] state') (hlt : bound' < now)
    (hmention : ∀ s ∈ state'.2, state'.1.Free s → SetOver (bound' < date ·) (state'.1.getD s))
    (hrefs : state'.1.unreplaced.length ≤ limit' ∨
      ∀ s ∈ state'.2, state'.1.Free s → (references slots (state'.1.getD s)).card ≤ limit')
    (hlimit : limit' ≤ slots.length) :
    Paced slots (redate state'.1 date now) (now + 1) bound' limit' active state'.1 := by
  have hkeys := h.keys_of_run hrun
  have hle (s : Slot) : date s ≤ redate state'.1 date now s := by
    unfold redate
    split
    · exact Nat.le_refl _
    · exact Nat.le_succ_of_le (h.le s)
  have hfewer := h.fewer_of_event hnodup hrun hevent
  refine
    { keys := hkeys
      known := fun s hs => ((hactive s).1 hs).1
      free := fun s => ⟨redate_of_free, fun heq => Decidable.byContradiction fun hs => ?_⟩
      le := fun s => ?_
      pos := fun s => Nat.lt_of_lt_of_le (h.pos s) (hle s)
      lt := Nat.lt_succ_of_lt hlt
      few := by have := h.few; omega
      link := fun s k hk => ?_
      mention := fun s hs hfree t ht k hk => ?_
      refs := hrefs.imp_right fun hrefs s hs => hrefs s ((hactive s).1 hs).2
      limit_le := hlimit }
  · rw [redate_of_not_free hs] at heq
    have := h.le s
    omega
  · unfold redate
    split
    · exact Nat.le_succ_of_le (h.le s)
    · exact Nat.le_refl _
  · have hs : ¬ state'.1.Free s := not_free_of_replacement hk
    rw [redate_of_not_free hs]
    rcases hdated.link s k hk with hlt | ⟨hlt, hmem⟩
    · exact .inl (Nat.lt_of_lt_of_le hlt (hle k))
    · have hmem : s ∈ state'.2 := (hmem.resolve_left List.not_mem_nil).2
      exact .inr ⟨(hactive s).2 ⟨hkeys.replaced s hs, hmem⟩, Nat.lt_of_lt_of_le hlt (hle k)⟩
  · exact Nat.lt_of_lt_of_le (hmention s ((hactive s).1 hs).2 hfree t ht k hk) (hle k)

/-- **After a round in which a slot comes to be replaced**, one may begin anew with fewer slots. -/
theorem reset : Paced slots (redate state'.1 date now) (now + 1) 0 state'.1.unreplaced.length active
    state'.1 := by
  have hnow : 0 < now := Nat.lt_of_le_of_lt (Nat.zero_le _) h.lt
  have hover (own : OrderedSet Template) : SetOver (0 < date ·) own := fun _ _ k _ => h.pos k
  have hstart : Dated date now 0 dirty (v, []) :=
    ⟨h.dated.free, h.dated.gone, fun s k hk => (h.dated.link s k hk).imp_right (.imp_left fun _ => h.pos k)⟩
  have hdated : Dated date now 0 [] state' :=
    foldlM_induct_rest (I := Dated date now 0) hstart
      (fun _ _ _ _ hmid ht => hmid.turn hnow hnodup h.le (fun _ => hover _) ht) hrun
  exact h.next_of_event hnodup hrun hactive hevent hdated hnow (fun _ _ _ => hover _)
    (.inl (Nat.le_refl _)) (unreplaced_length_le (h.keys_of_run hrun))

/-- **By a test of equality** a round in which a slot comes to be replaced keeps bound and limit. -/
theorem steady (hexact : ∀ a b, alike a b = true → a.sameMembers b = true) (hnamed : v.Over Named)
    (hdivided : ∀ s ∈ dirty, v.Free s → v.Divided s) :
    Paced slots (redate state'.1 date now) (now + 1) bound limit active state'.1 ∧
      ∀ s ∈ active, state'.1.Free s → state'.1.Divided s := by
  obtain ⟨most, hmost, htended⟩ := h.tended bound
  have hnames : ∀ s ∈ slots, Named s := fun s hs => hnamed.keys s (h.keys.slots ▸ hs)
  obtain ⟨-, -, -, hdated, htended, -⟩ := foldlM_induct_rest
    (I := fun rest mid => (∀ s ∈ rest, s ∈ slots) ∧ KeysAre slots mid.1 ∧ mid.1.Over Named ∧
      Dated date now bound rest mid ∧ Tended slots date bound bound most rest mid ∧
      ∀ s ∈ rest, mid.1.Free s → mid.1.Divided s)
    ⟨h.known, h.keys, hnamed, h.dated, htended, hdivided⟩ (fun slot rest mid mid' hmid ht => by
      obtain ⟨hknown, hkeys, hnamed, hdated, htended, hdivided⟩ := hmid
      rw [List.forall_mem_cons] at hknown
      have hsteady (hfree : mid.1.Free slot) : Steady mid slot (gathering alike slots mid slot) :=
        steady_of_exact hexact hnodup hnamed hnames hknown.1 hfree (hdivided slot (.head _) hfree)
      have hown (hfree : mid.1.Free slot) :
          SetOver (bound < date ·) (gathering alike slots mid slot).own :=
        (hsteady hfree).own ▸ (htended.due slot (.head _) hfree).1
      exact ⟨hknown.2, hkeys.turn hknown.1 ht, hnamed.turn (hnames slot hknown.1) hnames ht,
        hdated.turn h.lt hnodup h.le hown ht,
        htended.turn hnodup (Nat.le_refl _) hkeys hknown.1 hsteady
          (fun hfree k hk => hdated.lt_image_gathered h.lt (gathered_gathering alike hnodup mid slot)
            hfree (hown hfree) hk) ht,
        fun s hs hfree => divided_turn hnodup ht hfree fun _ => hdivided s (.tail _ hs)⟩) hrun
  have hfewer := h.fewer_of_event hnodup hrun hevent
  refine ⟨h.next_of_event hnodup hrun hactive hevent hdated h.lt
    (fun s hs hfree => (htended.done s hs hfree).1) ?_ h.limit_le,
    fun s hs hfree => (htended.done s ((hactive s).1 hs).2 hfree).2.2⟩
  rcases hmost with hfew | rfl
  · exact .inl (Nat.le_of_lt (Nat.lt_of_lt_of_le hfewer hfew))
  · exact .inr fun s hs hfree => (htended.done s hs hfree).2.1

end Event

/-! ## Quiet rounds -/

section Quiet

variable (hquiet : ∀ s, v.Free s → state'.1.Free s)

include h hnodup hrun hquiet

/-- A quiet round keeps dates in order, and goes from past one bound to past the other if following
replacements does so. -/
theorem run_of_quiet (hbound : bound' = bound ∨
      bound' = bound + 1 ∧ bound + 1 < now ∧ ∀ s k, v.replacement? s = some k → date s < date k)
    {most : Nat} (htended : Tended slots date bound bound' most dirty (v, [])) :
    Dated date now bound [] state' ∧ Tended slots date bound bound' most [] state' := by
  have hle : bound ≤ bound' := by omega
  refine (quiet_induct (I := fun rest mid => ((∀ s ∈ rest, s ∈ slots) ∧ KeysAre slots mid.1 ∧
      (bound' = bound ∨ bound' = bound + 1 ∧ bound + 1 < now ∧
        ∀ s k, mid.1.replacement? s = some k → date s < date k)) ∧
      Dated date now bound rest mid ∧ Tended slots date bound bound' most rest mid)
    hnodup hrun rfl hquiet ⟨⟨h.known, h.keys, hbound⟩, h.dated, htended⟩ ?_).2
  rintro slot rest mid mid' ⟨⟨hknown, hkeys, hbound⟩, hdated, htended⟩ ht hmid hmid'
  rw [List.forall_mem_cons] at hknown
  have hkept : ∀ s, mid.1.Free s → mid'.1.Free s := by
    rw [hmid, hmid']
    exact fun _ hs => hs
  have hidle (hfree : mid.1.Free slot) : gathering alike slots mid slot = untouched mid slot :=
    (worked_of_turn hnodup ht hfree).idle hkept
  refine ⟨⟨hknown.2, hkeys.turn hknown.1 ht, ?_⟩, ?_, ?_⟩
  · refine hbound.imp_right fun ⟨heq, hrise, hstrict⟩ => ⟨heq, hrise, fun s k hk => ?_⟩
    rcases (quietTurn_of_turn hnodup ht hkept).link hk with ⟨-, hfree, hgone⟩ | hold
    · rw [hdated.free k hfree]
      rw [hmid, h.free] at hgone
      exact Nat.lt_of_le_of_ne (h.le s) hgone
    · exact hstrict s k hold
  · exact hdated.turn h.lt hnodup h.le
      (fun hfree => hidle hfree ▸ (htended.due slot (.head _) hfree).1) ht
  · refine htended.turn hnodup hle hkeys hknown.1
      (fun hfree => hidle hfree ▸ ⟨rfl, hfree⟩) (fun hfree k hk => ?_) ht
    rw [hidle hfree]
    change bound' < date (mid.1.image k)
    rcases hbound with rfl | ⟨rfl, hrise, hstrict⟩
    · exact hdated.lt_image hk
    · by_cases hfree : mid.1.Free k
      · rwa [image_of_free hfree, hdated.free k hfree]
      · obtain ⟨next, hnext⟩ := exists_of_not_free hfree
        rw [image_of_replacement hnext]
        exact Nat.lt_of_le_of_lt hk (hstrict k next hnext)

theorem strict_of_dated (hdated : Dated date now bound [] state')
    (hk : state'.1.replacement? s = some k) : date s < date k := by
  refine (hdated.link s k hk).resolve_right fun ⟨_, hmem⟩ => ?_
  have hgone : ¬ v.Free s := free_eq_of_quiet hnodup hrun hquiet ▸ not_free_of_replacement hk
  exact hgone ((h.free s).2 (hmem.resolve_left List.not_mem_nil).1)

include hactive

/-- What a quiet round leaves when the slots that have changed are past a bound. -/
theorem next_of_quiet (hlt : bound' < now) {most : Nat}
    (hmost : v.unreplaced.length ≤ limit ∨ most = limit)
    (hrun' : Dated date now bound [] state' ∧ Tended slots date bound bound' most [] state') :
    Paced slots date now bound' limit active state'.1 ∧ Calm date active state'.1 ∧
      ∀ s ∈ active, state'.1.Free s → state'.1.Divided s := by
  obtain ⟨hdated, htended⟩ := hrun'
  have hsame := free_eq_of_quiet hnodup hrun hquiet
  have hkeys := h.keys_of_run hrun
  have hunreplaced := unreplaced_eq h.keys hkeys hsame
  have hstrict (s k : Slot) (hk : state'.1.replacement? s = some k) : date s < date k :=
    h.strict_of_dated hnodup hrun hquiet hdated hk
  refine ⟨?_, ⟨hstrict, fun s hs k hk =>
    direct_of_quiet hnodup hrun hquiet ((hactive s).1 hs).2 hk⟩, fun s hs hfree =>
      (htended.done s ((hactive s).1 hs).2 hfree).2.2⟩
  exact
    { keys := hkeys
      known := fun s hs => ((hactive s).1 hs).1
      free := fun s => hsame ▸ h.free s
      le := h.le
      pos := h.pos
      lt := hlt
      few := hunreplaced ▸ h.few
      link := fun s k hk => .inl (hstrict s k hk)
      mention := fun s hs hfree => (htended.done s ((hactive s).1 hs).2 hfree).1
      refs := by
        refine hmost.imp (fun hfew => hunreplaced ▸ hfew) fun heq s hs hfree => ?_
        exact heq ▸ (htended.done s ((hactive s).1 hs).2 hfree).2.1
      limit_le := h.limit_le }

/-- **A quiet round** keeps bound and limit, and leaves calm. -/
theorem quiet : Paced slots date now bound limit active state'.1 ∧ Calm date active state'.1 ∧
    ∀ s ∈ active, state'.1.Free s → state'.1.Divided s := by
  obtain ⟨most, hmost, htended⟩ := h.tended bound
  exact h.next_of_quiet hnodup hrun hactive hquiet h.lt hmost
    (h.run_of_quiet hnodup hrun hquiet (.inl rfl) htended)

/-- **After calm** a quiet round raises the bound. -/
theorem rise (hcalm : Calm date dirty v) (hlt : bound + 1 < now) :
    Paced slots date now (bound + 1) limit active state'.1 ∧ Calm date active state'.1 ∧
      ∀ s ∈ active, state'.1.Free s → state'.1.Divided s := by
  obtain ⟨most, hmost, htended⟩ := h.tended (bound + 1)
  exact h.next_of_quiet hnodup hrun hactive hquiet hlt hmost
    (h.run_of_quiet hnodup hrun hquiet (.inr ⟨rfl, hlt, hcalm.strict⟩) htended)

omit hnodup hrun hquiet hactive in
/-- When the bound has risen to the present, the slots that change mention nothing replaced. -/
theorem free_of_mentioned (hnow : bound + 1 = now) (hs : s ∈ dirty) (hfree : v.Free s) :
    SetOver v.Free (v.getD s) ∧ (references slots (v.getD s)).card ≤ limit := by
  have hover : SetOver v.Free (v.getD s) := by
    intro t ht k hk
    have hlt : bound < date k := h.mention s hs hfree t ht k hk
    have := h.le k
    exact (h.free k).2 (by omega)
  refine ⟨hover, ?_⟩
  rcases h.refs with hfew | hrefs
  · refine Nat.le_trans ?_ hfew
    refine (Finset.card_le_card fun k hk => ?_).trans (List.toFinset_card_le v.unreplaced)
    obtain ⟨hmem, hkey⟩ := mem_references.1 hk
    rw [List.mem_toFinset, mem_unreplaced_iff, h.keys.slots]
    exact ⟨hkey, Template.over_ofSlot_iff.1 (hover _ hmem)⟩
  · exact hrefs s hs hfree

/-- **When the bound has risen to the present**, a quiet round after calm leaves slots that are spare.
If they were so before, those that have changed refer to fewer keys. -/
theorem still (hcalm : Calm date dirty v) (hnow : bound + 1 = now) (known : Prop)
    (hspare : known → ∀ s ∈ dirty, Spare slots v s) (hs : s ∈ active) :
    state'.1.Free s ∧ Spare slots state'.1 s ∧
      (known → (references slots (state'.1.getD s)).card < limit) := by
  have hstill : Still slots limit known dirty (v, []) := by
    refine ⟨fun s hs hfree => ?_, fun s hs => absurd hs List.not_mem_nil⟩
    obtain ⟨hover, hcard⟩ := h.free_of_mentioned hnow hs hfree
    exact ⟨hover, hcard, fun hknown => hspare hknown s hs⟩
  have hfree : state'.1.Free s := free_of_calm hnodup hrun hquiet hcalm ((hactive s).1 hs).2
  obtain ⟨-, hspare, -, hfewer⟩ :=
    (hstill.run hnodup h.keys h.known hrun hquiet).done s ((hactive s).1 hs).2 hfree
  exact ⟨hfree, hspare, hfewer⟩

end Quiet

end Paced

end SlotValues

end GrammarInduction
