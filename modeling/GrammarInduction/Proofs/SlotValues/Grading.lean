import GrammarInduction.Proofs.SlotValues.Remaining
import Mathlib.Data.Finset.Card
import Mathlib.Data.List.Perm.Subperm

/-!
# Slot values without detours back

Slot values are graded if no slot comes back to itself through slots that are values by themselves:
such a slot has a lesser rank than the slots it is a value of (`Graded`). A turn by a test of
equality of value sets keeps slot values graded, by new ranks, and changes nothing of what any slot
yields (`Graded.turn`): slots that go together have the same values, and what a slot gives up is
provided by the values that remain. So all turns that are met agree with the beginning
(`exact_of_meets`), and keep what the slot has gathered (`turnsKeep_of_graded`).
-/

namespace GrammarInduction

namespace SlotValues

variable {rank : Slot → Nat} {v v' : SlotValues} {slot target s k : Slot}
  {later slots sorted dirty : List Slot} {own templates : OrderedSet Template} {t : Template}
  {w : Work} {alike : OrderedSet Template → OrderedSet Template → Bool}

/-- The slot yields nothing. -/
def Barren (v : SlotValues) (s : Slot) : Prop := ∀ u, ¬ Yields v.rules [.slot s] u

theorem Barren.of_keeps (h : v.Barren s) (hkeeps : Keeps v' v) : v'.Barren s :=
  fun u hu => h u (hkeeps _ _ hu)

/-- A slot that is a value by itself has a lesser rank than the slots it stands for a value of. The
set of a slot says what the slot stands for, or is empty with good reason. -/
structure Graded (rank : Slot → Nat) (v : SlotValues) : Prop where
  stored : ∀ s, v.Stored s ∨ v.sets s = [] ∧ v.Barren s
  lt : ∀ s k, .ofSlot k ∈ v.rules s → rank k < rank s

theorem graded_of_no_replacement (h : v.replacements = .empty)
    (hlt : ∀ s k, .ofSlot k ∈ v.sets s → rank k < rank s) : Graded rank v :=
  ⟨fun s => .inl (rules_of_no_replacement h s),
    fun s k hk => hlt s k (rules_of_no_replacement h s ▸ hk)⟩

namespace Graded

theorem mem_rules (h : Graded rank v) (ht : t ∈ v.sets s) : t ∈ v.rules s := by
  rcases h.stored s with hs | ⟨hs, -⟩
  · rwa [hs]
  · rw [hs] at ht
    cases ht

theorem lt_of_replacement (h : Graded rank v) (hs : v.replacement? s = some target) :
    rank target < rank s :=
  h.lt s target (by rw [rules_of_replacement hs]; exact .head _)

theorem replace (h : Graded rank v) (hlt : rank target < rank slot)
    (hkeeps : Keeps (v.replace slot target) v) : Graded rank (v.replace slot target) where
  stored s := by
    by_cases hs : s = slot
    · exact .inl (hs ▸ stored_replace v slot target)
    · rw [sets_replace, if_neg (Ne.symm hs)]
      exact (h.stored s).imp (·.replace_of_ne hs) (.imp_right fun hbarren => hbarren.of_keeps hkeeps)
  lt s k hk := by
    rw [rules_replace] at hk
    split at hk
    next heq =>
      obtain rfl : k = target := by simpa [Template.ofSlot] using hk
      exact heq ▸ hlt
    · exact h.lt s k hk

/-- Ranks can be chosen so that one slot is below another one with the same values. -/
theorem rerank (h : Graded rank v) {later : Slot} (hne : later ≠ slot)
    (hlt : ∀ k, .ofSlot k ∈ v.rules slot → rank k < rank later) :
    ∃ rank', Graded rank' v ∧ rank' slot < rank' later := by
  let rank' (s : Slot) : Nat :=
    if s = slot then 2 * min (rank slot) (rank later) else 2 * rank s + 1
  have hle (s : Slot) : rank' s ≤ 2 * rank s + 1 := by
    dsimp only [rank']
    split
    next heq =>
      subst heq
      omega
    · exact Nat.le_refl _
  refine ⟨rank', ⟨h.stored, fun s k hk => ?_⟩, ?_⟩
  · have hlt' := h.lt s k hk
    by_cases hs : s = slot
    · subst hs
      have := hlt k hk
      have := hle k
      have hs' : rank' s = 2 * min (rank s) (rank later) := if_pos rfl
      omega
    · by_cases hk' : k = slot
      · subst hk'
        have hk' : rank' k = 2 * min (rank k) (rank later) := if_pos rfl
        have hs' : rank' s = 2 * rank s + 1 := if_neg hs
        omega
      · have := hle k
        have hs' : rank' s = 2 * rank s + 1 := if_neg hs
        omega
  · have hs' : rank' slot = 2 * min (rank slot) (rank later) := if_pos rfl
    have hl' : rank' later = 2 * rank later + 1 := if_neg hne
    omega

/-! ## Chains of replacements -/

theorem lt_chainEnd (h : Graded rank v) {limit : Nat} {last : Slot}
    (hlast : v.chainEnd? slot limit target = some last) : rank last ≤ rank target :=
  chainEnd?_induct (I := fun s => rank last ≤ rank s) hlast (fun _ => Nat.le_refl _)
    fun _ _ hnext _ ih => Nat.le_trans ih (Nat.le_of_lt (h.lt_of_replacement hnext))

theorem compress (h : Graded rank v) {limit : Nat} {r : SlotValues × Bool}
    (hr : v.compress limit slot = .ok r) : Graded rank r.1 := by
  have hkeeps := keeps_of_compress hr
  rcases compress_eq_ok hr with ⟨-, rfl⟩ | ⟨target, last, htarget, hlast, rfl⟩
  · exact h
  · exact h.replace (Nat.lt_of_le_of_lt (h.lt_chainEnd hlast) (h.lt_of_replacement htarget)) hkeeps

end Graded

/-! ## Gathering -/

/-- Sets of templates of named slots that pass for equal have the same members. -/
theorem mem_of_sameMembers (hown : SetOver Named own) (htheirs : SetOver Named templates)
    (h : own.sameMembers templates = true) : t ∈ templates.toList ↔ t ∈ own.toList := by
  rw [OrderedSet.sameMembers, Bool.and_eq_true, beq_iff_eq, OrderedSet.subset,
    List.all_eq_true] at h
  have hsub : own.toList ⊆ templates.toList :=
    fun t ht => mem_of_contains_of_named htheirs (hown t ht) (h.2 t ht)
  have hsubperm := List.subperm_of_subset (nodup_toList_of_template own) hsub
  have hperm : own.toList.Perm templates.toList :=
    hsubperm.perm_of_length_le (Nat.le_of_eq h.1.symm)
  exact hperm.mem_iff.symm

theorem insertAll_of_contains {ts : List Template} (h : ∀ t ∈ ts, own.contains t = true) :
    own.insertAll ts = own := by
  induction ts with
  | nil => rfl
  | cons t ts ih =>
    rw [OrderedSet.insertAll_cons, OrderedSet.insert_of_contains (h t List.mem_cons_self)]
    exact ih fun t ht => h t (.tail _ ht)

/-- A set takes in nothing from one that passes for equal. -/
theorem insertAll_of_sameMembers (hown : SetOver Named own) (htheirs : SetOver Named templates)
    (h : own.sameMembers templates = true) : own.insertAll templates.toList = own :=
  insertAll_of_contains fun _ ht =>
    OrderedSet.contains_of_mem ((mem_of_sameMembers hown htheirs h).1 ht)

/-- A slot at work among graded slot values that agree with those before: its values are what it
stands for. -/
structure Work.Graded (v : SlotValues) (slot : Slot) (w : Work) : Prop where
  graded : ∃ rank, SlotValues.Graded rank w.all
  rules : w.all.rules slot = w.own.toList
  agrees : Agrees v w.all

theorem Work.Graded.point (h : w.Graded v slot) {later : Slot}
    (honly : w.own.toList = [.ofSlot later]) (updated : List Slot)
    (changed : Bool) :
    Work.Graded v slot { w with all := w.all.replace slot later, updated, changed } := by
  obtain ⟨rank, hrank⟩ := h.graded
  have hrules : (w.all.replace slot later).rules = w.all.rules := by
    funext s
    rw [rules_replace]
    split
    next heq => rw [← heq, h.rules, honly]
    · rfl
  have hsame : Agrees w.all (w.all.replace slot later) := agrees_of_rules_eq hrules
  refine ⟨⟨rank, hrank.replace (hrank.lt slot later ?_) hsame.2⟩, ?_, h.agrees.trans hsame⟩
  · rw [h.rules, honly]
    exact .head _
  · exact (congrFun hrules slot).trans h.rules

theorem Work.Graded.takeIn (h : w.Graded v slot) (hw : w.Over Named) {later : Slot}
    (hne : later ≠ slot) (hlater : w.all.Free later)
    (hsame : w.own.sameMembers (w.all.getD later) = true) (updated : List Slot) (changed : Bool) :
    Work.Graded v slot
      { all := w.all.replace later slot, own := w.own.insertAll (w.all.getD later).toList, updated,
        changed } := by
  have hmem {t : Template} : t ∈ w.all.rules later ↔ t ∈ w.all.rules slot := by
    rw [rules_of_unreplaced hlater, h.rules]
    exact mem_of_sameMembers hw.own (hw.all.values later) hsame
  have hagrees : Agrees w.all (w.all.replace later slot) := by
    refine ⟨keeps_replace hne.symm fun t ht => hmem.1 ht, keeps_of_replace fun u hu => ?_⟩
    obtain ⟨t, ht, hu⟩ := yields_slot_iff.1 hu
    exact yields_of_mem_rules (hmem.2 ht) hu
  obtain ⟨rank, hrank⟩ := h.graded
  obtain ⟨rank', hrank', hlt⟩ := hrank.rerank hne fun k hk => hrank.lt later k (hmem.2 hk)
  refine ⟨⟨rank', hrank'.replace hlt hagrees.2⟩, ?_, h.agrees.trans hagrees⟩
  dsimp only
  rw [rules_replace_ne hne.symm, h.rules, insertAll_of_sameMembers hw.own (hw.all.values later) hsame]

theorem Work.Graded.absorb (hexact : ∀ a b, alike a b = true → a.sameMembers b = true)
    (h : w.Graded v slot) (hw : w.Over Named) {later : Slot} (hne : later ≠ slot) :
    (SlotValues.absorb alike slot w later).Graded v slot := by
  refine absorb_induct (I := Work.Graded v slot) h ?takeIn ?point
  case takeIn => exact fun hlater halike => h.takeIn hw hne hlater (hexact _ _ halike) _ _
  case point => exact fun w hw _ honly => hw.point honly _ _

theorem graded_gathering (hexact : ∀ a b, alike a b = true → a.sameMembers b = true)
    {state : SlotValues × List Slot} (h : Graded rank state.1) (hover : state.1.Over Named)
    (hslot : Named slot) (hnamed : ∀ s ∈ slots, Named s) (hnodup : slots.Nodup)
    (hfree : state.1.Free slot) : (gathering alike slots state slot).Graded state.1 slot := by
  have hinit : Work.Graded state.1 slot (untouched state slot) :=
    ⟨⟨rank, h⟩, rules_of_unreplaced hfree, Agrees.refl state.1⟩
  refine (gathering_induct (I := fun w => w.Graded state.1 slot ∧ w.Over Named)
    ⟨hinit, hover, hover.values slot⟩ ?_).1
  rintro w ⟨hgraded, hw⟩ later hlater
  exact ⟨hgraded.absorb hexact hw (ne_of_mem_laterThan hnodup hlater),
    hw.absorb hslot (hnamed later (mem_of_mem_laterThan hlater))⟩

/-! ## Writing back what remains -/

section Conclude

variable (hown : w.all.rules slot = w.own.toList)

include hown

/-- What is written back is what the slot stands for, or nothing is and the slot is replaced. -/
theorem rules_conclude_remaining_cases (later : List Slot) :
    (conclude w.all slot (remaining later slot w)).rules slot = (remaining later slot w).toList ∨
      (remaining later slot w).toList = [] ∧
        (conclude w.all slot (remaining later slot w)).rules = w.all.rules := by
  cases htarget : w.all.replacement? slot with
  | none => exact .inl (rules_conclude_self (.inl htarget))
  | some target =>
    have hsingle : w.own.toList = [.ofSlot target] := by
      rw [← hown, rules_of_replacement htarget]
    rcases remaining_of_only hsingle with hnil | hone
    · exact .inr ⟨hnil, rules_conclude_of_nil hnil htarget⟩
    · exact .inl (rules_conclude_self (.inr hone))

/-- After its turn a slot yields nothing that it has not yielded before. -/
theorem keeps_of_conclude (later : List Slot) :
    Keeps (conclude w.all slot (remaining later slot w)) w.all := by
  rcases rules_conclude_remaining_cases hown later with hself | ⟨-, hrules⟩
  · refine keeps_of_slot (fun s hs => (rules_conclude_ne hs).symm) fun t ht u hu => ?_
    rw [hself] at ht
    obtain ⟨t', ht', rfl⟩ := mem_of_mem_remaining ht
    exact yields_of_mem_rules (hown ▸ ht') ((yields_rename_iff fun _ _ _ h => h).1 hu)
  · exact (agrees_of_rules_eq hrules).2

variable (h : Graded rank w.all)

include h

theorem rank_lt_of_mem_own (hk : .ofSlot k ∈ w.own.toList) : rank k < rank slot :=
  h.lt slot k (hown ▸ hk)

theorem rank_lt_of_rename (ht : t ∈ w.own.toList)
    (hk : t.rename w.all.replacements = .ofSlot k) : rank k < rank slot := by
  obtain ⟨k', rfl, rfl⟩ := eq_ofSlot_of_rename hk
  have hlt := rank_lt_of_mem_own hown h ht
  cases hget : w.all.replacements.get? k' with
  | none => exact hlt
  | some target => exact Nat.lt_trans (h.lt_of_replacement hget) hlt

theorem rename_ne_ofSlot (ht : t ∈ w.own.toList) :
    t.rename w.all.replacements ≠ .ofSlot slot :=
  fun heq => Nat.lt_irrefl _ (rank_lt_of_rename hown h ht heq)

/-- Where what remains is what the slot stands for, it yields whatever the values that it has gathered
yield. -/
theorem yields_conclude_of_mem_own (hw : w.Over Named) (later : List Slot)
    (hself : (conclude w.all slot (remaining later slot w)).rules slot =
      (remaining later slot w).toList) : ∀ t ∈ w.own.toList, ∀ u,
    Yields (conclude w.all slot (remaining later slot w)).rules t.tokens u →
    Yields (conclude w.all slot (remaining later slot w)).rules [.slot slot] u := by
  have hrules {k : Slot} (hk : .ofSlot k ∈ w.own.toList) :
      (conclude w.all slot (remaining later slot w)).rules k = w.all.rules k := by
    refine rules_conclude_ne ?_
    rintro rfl
    exact Nat.lt_irrefl _ (rank_lt_of_mem_own hown h hk)
  refine remaining_induct later hw (fun s k hk => h.lt s k (h.mem_rules hk))
    (fun k hk => rank_lt_of_mem_own hown h hk) ?_ ?_ ?_ (fun t ht => rename_ne_ofSlot hown h ht) ?_
  · intro k hk hq t ht u hu
    exact hq u (yields_of_mem_rules (hrules hk ▸ h.mem_rules ht) hu)
  · intro k hk hq u hu
    rcases h.stored k with hstored | ⟨-, hbarren⟩
    · obtain ⟨t, ht, hu⟩ := yields_slot_iff.1 hu
      rw [hrules hk, hstored] at ht
      exact hq t ht u hu
    · exact absurd hu (hbarren.of_keeps (keeps_of_conclude hown later) u)
  · intro t ht hq u hu
    refine hq u ((yields_rename_iff fun s hs target htarget => ?_).2 hu)
    rw [replacement?_conclude_ne]
    · exact htarget
    · rintro rfl
      rw [← hown, rules_of_replacement htarget, List.mem_singleton] at ht
      subst ht
      obtain rfl : s = target := List.mem_singleton.1 hs
      exact absurd (h.lt_of_replacement htarget) (Nat.lt_irrefl _)
  · intro t ht u hu
    exact yields_of_mem_rules (hself ▸ ht) hu

/-- After its turn a slot yields whatever it has yielded before. -/
theorem keeps_conclude (hw : w.Over Named) (later : List Slot) :
    Keeps w.all (conclude w.all slot (remaining later slot w)) := by
  rcases rules_conclude_remaining_cases hown later with hself | ⟨-, hrules⟩
  · exact keeps_of_slot (fun s hs => rules_conclude_ne hs) fun t ht u hu =>
      yields_conclude_of_mem_own hown h hw later hself t (hown ▸ ht) u hu
  · exact (agrees_of_rules_eq hrules).1

theorem barren_of_remaining_nil (hw : w.Over Named) (hnil : (remaining later slot w).toList = []) :
    w.all.Barren slot := by
  have hgathered : ∀ t ∈ w.own.toList, ∀ u, ¬ Yields w.all.rules t.tokens u := by
    refine remaining_induct later hw (fun s k hk => h.lt s k (h.mem_rules hk))
      (fun k hk => rank_lt_of_mem_own hown h hk) ?_ ?_ ?_ (fun t ht => rename_ne_ofSlot hown h ht) ?_
    · intro k hk hq t ht u hu
      exact hq u (yields_of_mem_rules (h.mem_rules ht) hu)
    · intro k hk hq u hu
      rcases h.stored k with hstored | ⟨-, hbarren⟩
      · obtain ⟨t, ht, hu⟩ := yields_slot_iff.1 hu
        exact hq t (hstored ▸ ht) u hu
      · exact hbarren u hu
    · exact fun t _ hq u hu => hq u ((yields_rename_iff fun _ _ _ h => h).2 hu)
    · intro t ht
      rw [hnil] at ht
      cases ht
  intro u hu
  obtain ⟨t, ht, hu⟩ := yields_slot_iff.1 hu
  exact hgathered t (hown ▸ ht) u hu

theorem graded_conclude (hw : w.Over Named) (later : List Slot) :
    Graded rank (conclude w.all slot (remaining later slot w)) := by
  have hback := keeps_of_conclude hown later
  have hcases := rules_conclude_remaining_cases hown later
  refine ⟨fun s => ?_, fun s k hk => ?_⟩
  · by_cases hs : s = slot
    · subst hs
      rw [Stored, sets_conclude_self]
      refine hcases.imp id fun hnil => ⟨hnil.1, ?_⟩
      exact (barren_of_remaining_nil hown h hw hnil.1).of_keeps hback
    · rw [Stored, rules_conclude_ne hs, sets_conclude_ne hs]
      exact (h.stored s).imp id (.imp_right fun hbarren => hbarren.of_keeps hback)
  · by_cases hs : s = slot
    · subst hs
      rcases hcases with hself | ⟨-, hrules⟩
      · rw [hself] at hk
        obtain ⟨t, ht, heq⟩ := mem_of_mem_remaining hk
        exact rank_lt_of_rename hown h ht heq.symm
      · exact h.lt s k (hrules ▸ hk)
    · exact h.lt s k (rules_conclude_ne hs ▸ hk)

end Conclude

/-! ## Turns -/

section Run

variable {state state' : SlotValues × List Slot}
  (hexact : ∀ a b, alike a b = true → a.sameMembers b = true)

include hexact

/-- A turn keeps slot values graded, by new ranks, and all that the slots yield. -/
theorem Graded.turn (h : Graded rank state.1) (hover : state.1.Over Named) (hslot : Named slot)
    (hnamed : ∀ s ∈ slots, Named s) (hnodup : slots.Nodup)
    (ht : turn alike slots state slot = .ok state') :
    (∃ rank', Graded rank' state'.1) ∧ Agrees state.1 state'.1 := by
  rcases turn_eq_ok ht with ⟨r, hr, -, rfl⟩ | ⟨hfree, w, rfl, rfl⟩
  · exact ⟨⟨rank, h.compress hr⟩, keeps_compress hr, keeps_of_compress hr⟩
  · have hwork := graded_gathering hexact h hover hslot hnamed hnodup hfree
    have hw := hover.gathering alike hslot hnamed
    obtain ⟨rank', hgraded⟩ := hwork.graded
    exact ⟨⟨rank', graded_conclude hwork.rules hgraded hw _⟩, hwork.agrees.trans
      ⟨keeps_conclude hwork.rules hgraded hw _, keeps_of_conclude hwork.rules _⟩⟩

theorem turnKeeps_of_graded (h : Graded rank state.1) (hover : state.1.Over Named)
    (hslot : Named slot) (hnamed : ∀ s ∈ slots, Named s) (hnodup : slots.Nodup)
    (hfree : state.1.isReplaced slot = false) : TurnKeeps alike slots state slot := by
  have hwork := graded_gathering hexact h hover hslot hnamed hnodup
    (isReplaced_eq_false_iff.1 hfree)
  obtain ⟨rank', hgraded⟩ := hwork.graded
  intro t ht u hu
  rw [afterTurn_eq]
  apply keeps_conclude hwork.rules hgraded (hover.gathering alike hslot hnamed)
  exact yields_of_mem_rules (hwork.rules ▸ ht) (hwork.agrees.1 _ _ hu)

/-- **By a test of equality, all slot values that are met are graded and agree with the
beginning.** -/
theorem exact_of_meets (h : Graded rank v) (hover : v.Over Named)
    (hmeets : Meets alike v.slots (v.slots.mergeSort Slot.le) v state dirty) :
    (∃ rank', Graded rank' state.1) ∧ state.1.Over Named ∧ Agrees v state.1 := by
  have hnodup : v.slots.Nodup := v.values.nodup_keys
  induction hmeets with
  | start => exact ⟨⟨rank, h⟩, hover, Agrees.refl v⟩
  | turn hmeets ht ih =>
    obtain ⟨⟨rank', hgraded⟩, hnamed, hagrees⟩ := ih
    have hslot := hover.keys _ hmeets.mem_slots
    obtain ⟨hgraded, hturn⟩ := hgraded.turn hexact hnamed hslot hover.keys hnodup ht
    exact ⟨hgraded, hnamed.turn hslot hover.keys ht, hagrees.trans hturn⟩
  | round _ ih => exact ih

/-- By a test of equality, all turns on graded slot values keep what the slot has gathered. -/
theorem turnsKeep_of_graded (h : Graded rank v) (hover : v.Over Named) : TurnsKeep alike v := by
  intro state slot rest hmeets hfree
  obtain ⟨⟨rank', hgraded⟩, hnamed, -⟩ := exact_of_meets hexact h hover hmeets
  have hslot := hover.keys _ hmeets.mem_slots
  exact turnKeeps_of_graded hexact hgraded hnamed hslot hover.keys v.values.nodup_keys hfree

end Run

/-! ## Acyclic slot values -/

/-- The second slot is a value of the first one. -/
def RefersTo (v : SlotValues) (s k : Slot) : Prop := .ofSlot k ∈ v.sets s

/-- No slot comes back to itself through slots that are values. -/
def Acyclic (v : SlotValues) : Prop := ∀ s, ¬ Relation.TransGen v.RefersTo s s

/-- The slots that come after a slot are fewer from each value on. -/
theorem exists_rank_of_acyclic (h : v.Acyclic) :
    ∃ rank : Slot → Nat, ∀ s k, .ofSlot k ∈ v.sets s → rank k < rank s := by
  classical
  let members := (v.slots.flatMap fun s => slotMembers (v.getD s)).toFinset
  refine ⟨fun s => (members.filter (Relation.TransGen v.RefersTo s)).card, fun s k hk => ?_⟩
  have hks : Relation.TransGen v.RefersTo s k := .single hk
  refine Finset.card_lt_card (Finset.ssubset_iff_of_subset ?_ |>.2 ⟨k, ?_, ?_⟩)
  · intro s' hs'
    rw [Finset.mem_filter] at hs' ⊢
    exact ⟨hs'.1, hks.trans hs'.2⟩
  · rw [Finset.mem_filter, List.mem_toFinset, List.mem_flatMap]
    exact ⟨⟨s, mem_slots_of_sets_ne_nil (List.ne_nil_of_mem hk), mem_slotMembers.2 hk⟩, hks⟩
  · exact fun hk' => h k (Finset.mem_filter.1 hk').2

end SlotValues

end GrammarInduction
