import GrammarInduction.Proofs.SlotValues.Chains
import GrammarInduction.Proofs.SlotValues.Pace

/-!
# Merging comes to rest

Each round of merging takes something off a budget (`Funded.round`): a round in which slots come to be
replaced pays for the rounds that follow it, in which the bound rises to the present, and for those
after it, in which references to keys are lost. By a test of equality nothing that has risen falls
back, and the budget at the beginning is linear in the number of slots; by other tests it is
quadratic. So at a threshold of 1 or more, and below it for up to 61 slots, the rounds allowed are
enough, and merging fails only if it comes upon a cycle of replacements (`merge_ok_iff`).

Such cycles do come up if a slot comes back to itself through slots that are values, and below the
threshold 1 even if none does (`merge_closes_cycles`).
-/

namespace GrammarInduction

namespace SlotValues

variable {v v₀ m : SlotValues} {slots sorted dirty active : List Slot}
  {state state' : SlotValues × List Slot} {alike : OrderedSet Template → OrderedSet Template → Bool}
  {date : Slot → Nat} {now bound limit weight budget allowed rounds : Nat} {exact : Prop}

/-! ## The budget -/

/-- How far merging has come since a slot was last replaced. -/
inductive Staged (slots : List Slot) (date : Slot → Nat) (now bound limit : Nat) (active : List Slot)
    (v : SlotValues) : Nat → Prop
  | stirred : Staged slots date now bound limit active v 0
  | calm (hcalm : Calm date active v) : Staged slots date now bound limit active v 1
  | still (hcalm : Calm date active v) (hnow : bound + 1 = now) (hspare : ∀ s ∈ active, Spare slots v s)
      (hrefs : ∀ s ∈ active, (references slots (v.getD s)).card ≤ limit) :
      Staged slots date now bound limit active v 2

/-- A budget of rounds, of which each slot that may still be replaced has a number. If merging goes by
a test of equality, no set of a slot that changes is a slot alone. -/
inductive Funded (exact : Prop) (weight : Nat) (slots active : List Slot) (v : SlotValues)
    (budget : Nat) : Prop
  | intro {date : Slot → Nat} {now bound limit stage : Nat}
      (paced : Paced slots date now bound limit active v)
      (staged : Staged slots date now bound limit active v stage)
      (divided : exact → ∀ s ∈ active, v.Free s → v.Divided s)
      (enough : weight * v.unreplaced.length + (now - 1 - bound) + limit + (2 - stage) ≤ budget) :
      Funded exact weight slots active v budget

section Round

variable (hnodup : slots.Nodup) (hexact : exact → ∀ a b, alike a b = true → a.sameMembers b = true)
  (hweight : (exact → 4 ≤ weight) ∧ (¬ exact → slots.length + 3 ≤ weight)) (hnamed : v.Over Named)
  (hrun : dirty.foldlM (turn alike slots) (v, []) = .ok state')
  (hactive : ∀ s, s ∈ active ↔ s ∈ slots ∧ s ∈ state'.2)

include hnodup hexact hweight hnamed hrun hactive

/-- A round in which a slot comes to be replaced pays for what follows. -/
theorem Funded.event (h : Funded exact weight slots dirty v budget)
    (hevent : ∃ s, v.Free s ∧ ¬ state'.1.Free s) :
    ∃ left < budget, Funded exact weight slots active state'.1 left := by
  obtain ⟨hpaced, -, hdivided, henough⟩ := h
  rename_i date now bound limit stage
  have hfewer : weight * (state'.1.unreplaced.length + 1) ≤ weight * v.unreplaced.length :=
    Nat.mul_le_mul_left _ (hpaced.fewer_of_event hnodup hrun hevent)
  rw [Nat.mul_succ] at hfewer
  by_cases he : exact
  · obtain ⟨hpaced', hdivided'⟩ :=
      hpaced.steady hnodup hrun hactive hevent (hexact he) hnamed (hdivided he)
    refine ⟨_, ?_, .intro hpaced' .stirred (fun _ => hdivided') (Nat.le_refl _)⟩
    have := hpaced.lt
    have := hweight.1 he
    omega
  · have hpaced' := hpaced.reset hnodup hrun hactive hevent
    refine ⟨_, ?_, .intro hpaced' .stirred (fun he' => absurd he' he) (Nat.le_refl _)⟩
    have := hpaced'.few
    have := hweight.2 he
    omega

omit hexact hweight hnamed in
/-- A quiet round raises the bound, or leaves slots that are spare, or lowers the limit. -/
theorem Funded.quiet (h : Funded exact weight slots dirty v budget)
    (hquiet : ∀ s, v.Free s → state'.1.Free s) :
    active = [] ∨ ∃ left < budget, Funded exact weight slots active state'.1 left := by
  obtain ⟨hpaced, hstaged, -, henough⟩ := h
  rename_i date now bound limit stage
  have hlt := hpaced.lt
  rw [← unreplaced_eq hpaced.keys (hpaced.keys_of_run hrun) (free_eq_of_quiet hnodup hrun hquiet)]
    at henough
  obtain ⟨hpaced', hcalm', hdivided'⟩ := hpaced.quiet hnodup hrun hactive hquiet
  cases hstaged with
  | stirred =>
    exact .inr ⟨_, by omega, .intro hpaced' (.calm hcalm') (fun _ => hdivided') (Nat.le_refl _)⟩
  | calm hcalm =>
    right
    by_cases hrise : bound + 1 < now
    · obtain ⟨hpaced', hcalm', hdivided'⟩ := hpaced.rise hnodup hrun hactive hquiet hcalm hrise
      exact ⟨_, by omega, .intro hpaced' (.calm hcalm') (fun _ => hdivided') (Nat.le_refl _)⟩
    · have hnow : bound + 1 = now := by omega
      have hstill {s : Slot} (hs : s ∈ active) := hpaced.still hnodup hrun hactive hquiet hcalm hnow
        False False.elim hs
      have hstaged : Staged slots date now bound limit active state'.1 2 :=
        .still hcalm' hnow (fun s hs => (hstill hs).2.1)
          fun s hs => (hpaced'.free_of_mentioned hnow hs (hstill hs).1).2
      exact ⟨_, by omega, .intro hpaced' hstaged (fun _ => hdivided') (Nat.le_refl _)⟩
  | still hcalm hnow hspare hrefs =>
    have hstill {s : Slot} (hs : s ∈ active) := hpaced.still hnodup hrun hactive hquiet hcalm hnow
      True (fun _ => hspare) hs
    rcases List.eq_nil_or_concat active with hnil | ⟨_, last, hlast⟩
    · exact .inl hnil
    have hpos := (hstill (s := last) (by simp [hlast])).2.2 trivial
    have hrefs : ∀ s ∈ active, (references slots (state'.1.getD s)).card ≤ limit - 1 :=
      fun s hs => Nat.le_sub_one_of_lt ((hstill hs).2.2 trivial)
    have hpaced' : Paced slots date now bound (limit - 1) active state'.1 :=
      { hpaced' with
        refs := .inr fun s hs _ => hrefs s hs
        limit_le := (Nat.sub_le _ _).trans hpaced'.limit_le }
    have hstaged : Staged slots date now bound (limit - 1) active state'.1 2 :=
      .still hcalm' hnow (fun s hs => (hstill hs).2.1) hrefs
    exact .inr ⟨_, by omega, .intro hpaced' hstaged (fun _ => hdivided') (Nat.le_refl _)⟩

/-- **Each round takes something off the budget**, or is the last one. -/
theorem Funded.round (h : Funded exact weight slots dirty v budget) :
    active = [] ∨ ∃ left < budget, Funded exact weight slots active state'.1 left := by
  by_cases hevent : ∃ s, v.Free s ∧ ¬ state'.1.Free s
  · exact .inr (h.event hnodup hexact hweight hnamed hrun hactive hevent)
  · exact h.quiet hnodup hrun hactive fun s hs =>
      Decidable.byContradiction fun hgone => hevent ⟨s, hs, hgone⟩

end Round

/-! ## The rounds come to an end -/

/-- Merging comes upon a cycle of replacements when a slot has its turn. -/
def Breaks (alike : OrderedSet Template → OrderedSet Template → Bool) (slots sorted : List Slot)
    (v : SlotValues) (slot : Slot) : Prop :=
  ∃ state rest, Meets alike slots sorted v state (slot :: rest) ∧
    turn alike slots state slot = .error (.replacementCycle slot)

/-- A round comes to its end or upon a cycle of replacements. -/
theorem run_cases (hmeets : Meets alike slots sorted v₀ state dirty) :
    (∃ state', dirty.foldlM (turn alike slots) state = .ok state') ∨
      ∃ slot, Breaks alike slots sorted v₀ slot ∧
        dirty.foldlM (turn alike slots) state = .error (.replacementCycle slot) := by
  induction dirty generalizing state with
  | nil => exact .inl ⟨state, rfl⟩
  | cons slot rest ih =>
    rw [List.foldlM_cons]
    cases ht : turn alike slots state slot with
    | error e =>
      obtain rfl := turn_error ht
      exact .inr ⟨slot, ⟨state, rest, hmeets, ht⟩, rfl⟩
    | ok mid => exact ih (hmeets.turn ht)

/-- The rounds come to an end or upon a cycle of replacements. -/
def Settles (alike : OrderedSet Template → OrderedSet Template → Bool) (allowed rounds : Nat)
    (v₀ v : SlotValues) (dirty : List Slot) : Prop :=
  (∃ settled, settle alike v₀.slots (v₀.slots.mergeSort Slot.le) allowed rounds v dirty = .ok settled) ∨
    ∃ slot, Breaks alike v₀.slots (v₀.slots.mergeSort Slot.le) v₀ slot ∧
      settle alike v₀.slots (v₀.slots.mergeSort Slot.le) allowed rounds v dirty =
        .error (.replacementCycle slot)

theorem mem_next_iff {slots changed : List Slot} {s : Slot} :
    s ∈ (slots.mergeSort Slot.le).filter changed.contains ↔ s ∈ slots ∧ s ∈ changed := by
  rw [List.mem_filter, List.mem_mergeSort, List.contains_iff_mem]

section Run

variable (hmeets : Meets alike v₀.slots (v₀.slots.mergeSort Slot.le) v₀ (v, []) dirty)

include hmeets

theorem settles_of_round
    (hnext : ∀ state', dirty.foldlM (turn alike v₀.slots) (v, []) = .ok state' →
      Meets alike v₀.slots (v₀.slots.mergeSort Slot.le) v₀ (state'.1, [])
        ((v₀.slots.mergeSort Slot.le).filter state'.2.contains) →
      Settles alike allowed rounds v₀ state'.1
        ((v₀.slots.mergeSort Slot.le).filter state'.2.contains)) :
    Settles alike allowed (rounds + 1) v₀ v dirty := by
  rcases run_cases hmeets with ⟨state', hrun⟩ | ⟨slot, hbreaks, hrun⟩
  · unfold Settles
    rw [settle_succ, hrun]
    have hended := (round_induct (I := fun _ => True) (fun _ _ _ _ _ _ _ => trivial) hmeets trivial
      hrun).1
    exact hnext state' hrun hended.round
  · exact .inr ⟨slot, hbreaks, by rw [settle_succ, hrun]; rfl⟩

/-- **Within a budget the rounds come to an end**, or upon a cycle. -/
theorem Funded.settles (hexact : exact → ∀ a b, alike a b = true → a.sameMembers b = true)
    (hweight : (exact → 4 ≤ weight) ∧ (¬ exact → v₀.slots.length + 3 ≤ weight)) (hnamed : v₀.Over Named)
    (h : Funded exact weight v₀.slots dirty v budget) (hbudget : budget < rounds) :
    Settles alike allowed rounds v₀ v dirty := by
  induction rounds generalizing v dirty budget with
  | zero => exact absurd hbudget (Nat.not_lt_zero budget)
  | succ rounds ih =>
    refine settles_of_round hmeets fun state' hrun hmeets' => ?_
    have hnodup : v₀.slots.Nodup := v₀.values.nodup_keys
    rcases h.round hnodup hexact hweight (hnamed.of_meets hmeets) hrun fun _ => mem_next_iff with
      hnil | ⟨left, hleft, h⟩
    · rw [hnil]
      exact .inl ⟨_, settle_nil _ _⟩
    · exact ih hmeets' h (by omega)

end Run

/-! ## From the beginning -/

section Start

variable (hnamed : v.Over Named) (hfresh : v.replacements = .empty)

include hnamed hfresh

omit hnamed in
theorem funded_start (hactive : ∀ s ∈ active, s ∈ v.slots) (weight : Nat) :
    Funded False weight v.slots active v (weight * v.slots.length + v.slots.length + 2) := by
  have hpaced := paced_start hfresh hactive
  refine .intro hpaced .stirred False.elim ?_
  have := Nat.mul_le_mul_left weight (unreplaced_length_le hpaced.keys)
  omega

/-- With few slots the rounds allowed are enough for any test of similarity. -/
theorem settles_of_few (alike : OrderedSet Template → OrderedSet Template → Bool)
    (hfew : v.slots.length ≤ 61) :
    Settles alike allowed ((v.slots.length + 1) * roundsPerSlot) v v (v.slots.mergeSort Slot.le) := by
  refine Funded.settles .start False.elim
    ⟨False.elim, fun _ => Nat.le_refl (v.slots.length + 3)⟩ hnamed
    (funded_start hfresh (fun s hs => List.mem_mergeSort.1 hs) _) ?_
  have hsquare := Nat.mul_le_mul_right v.slots.length hfew
  rw [Nat.add_mul, roundsPerSlot]
  omega

/-- By a test of equality the rounds allowed are always enough. -/
theorem settles_of_exact (hexact : ∀ a b, alike a b = true → a.sameMembers b = true) :
    Settles alike allowed ((v.slots.length + 1) * roundsPerSlot) v v (v.slots.mergeSort Slot.le) := by
  have hnodup : v.slots.Nodup := v.values.nodup_keys
  have hsorted (s : Slot) : s ∈ v.slots.mergeSort Slot.le ↔ s ∈ v.slots := List.mem_mergeSort
  have hsplit : (v.slots.length + 1) * roundsPerSlot = v.slots.length * 64 + 63 + 1 := by
    rw [roundsPerSlot, Nat.add_mul]
  rw [hsplit]
  -- In the first round a slot may have a set that is a slot alone, and none has it any more after.
  refine settles_of_round .start fun state' hrun hmeets => ?_
  have hdivided : ∀ s ∈ v.slots.mergeSort Slot.le, state'.1.Free s → state'.1.Divided s := by
    refine foldlM_establish (R := fun s mid => mid.1.Free s → mid.1.Divided s) ?_ hrun
    refine fun slot mid mid' ht => ⟨fun hs => divided_turn hnodup ht hs fun hne => absurd rfl hne, ?_⟩
    exact fun s hmid hs => divided_turn hnodup ht hs fun _ => hmid
  rcases (funded_start hfresh (fun s hs => (hsorted s).1 hs) (v.slots.length + 3)).round hnodup
    False.elim ⟨False.elim, fun _ => Nat.le_refl _⟩ hnamed hrun fun _ => mem_next_iff with
    hnil | ⟨_, -, ⟨hpaced, -, -, -⟩⟩
  · rw [hnil]
    exact .inl ⟨_, settle_nil _ _⟩
  · have hfunded : Funded True 4 v.slots _ state'.1 _ :=
      .intro hpaced .stirred (fun _ s hs => hdivided s ((hsorted s).2 (hpaced.known s hs)))
        (Nat.le_refl _)
    refine hfunded.settles hmeets (fun _ => hexact)
      ⟨fun _ => Nat.le_refl 4, fun hno => absurd trivial hno⟩ hnamed ?_
    have := unreplaced_length_le hpaced.keys
    have := hpaced.few
    have := hpaced.limit_le
    omega

end Start

/-! ## Merging -/

/-- No state that is met when slots are merged has a cycle of replacements. -/
def StaysStraight (alike : OrderedSet Template → OrderedSet Template → Bool) (v : SlotValues) : Prop :=
  ∀ state rest, Meets alike v.slots (v.slots.mergeSort Slot.le) v state rest → state.1.Straight

/-- Merging succeeds if its rounds come to an end and no cycle of replacements is met. -/
theorem exists_mergeBy_of_straight (hfresh : v.replacements = .empty)
    (hsettles : Settles alike ((v.slots.length + 1) * roundsPerSlot)
      ((v.slots.length + 1) * roundsPerSlot) v v (v.slots.mergeSort Slot.le))
    (hstraight : StaysStraight alike v) : ∃ m, v.mergeBy alike = .ok m := by
  have hkeys : KeysAre v.slots v := (paced_start hfresh fun _ hs => hs).keys
  rcases hsettles with ⟨settled, hsettled⟩ | ⟨slot, ⟨state, rest, hmeets, ht⟩, -⟩
  · have hmeets := meets_settle hsettled
    exact exists_mergeBy (hkeys.of_meets hmeets) hsettled (hstraight _ _ hmeets)
  · have hturn : ∃ state', turn alike v.slots state slot = .ok state' :=
      exists_turn (hstraight _ _ hmeets) (hkeys.of_meets hmeets) slot
    obtain ⟨state', hok⟩ := hturn
    rw [hok] at ht
    cases ht

/-- If the rounds of merging come to an end, merging fails at a cycle of replacements alone. -/
theorem mergeBy_error {e : Failure}
    (hsettles : Settles alike ((v.slots.length + 1) * roundsPerSlot)
      ((v.slots.length + 1) * roundsPerSlot) v v (v.slots.mergeSort Slot.le))
    (h : v.mergeBy alike = .error e) : ∃ slot, e = .replacementCycle slot := by
  rcases bind_eq_error h with h | ⟨settled, -, h⟩
  · rcases hsettles with ⟨settled, hsettled⟩ | ⟨slot, -, hbroken⟩
    · rw [hsettled] at h
      cases h
    · exact ⟨slot, (Except.error.inj (hbroken.symm.trans h)).symm⟩
  · rcases bind_eq_error h with h | ⟨compressed, -, h⟩
    · exact compressAll_error h
    · exact compressAll_error h

theorem staysStraight_of_acyclic (hexact : ∀ a b, alike a b = true → a.sameMembers b = true)
    (hnamed : v.Over Named) (hfresh : v.replacements = .empty) (hacyclic : v.Acyclic) :
    StaysStraight alike v := by
  obtain ⟨rank, hlt⟩ := exists_rank_of_acyclic hacyclic
  intro state rest hmeets s hs
  obtain ⟨⟨rank', hgraded⟩, -, -⟩ :=
    exact_of_meets hexact (graded_of_no_replacement hfresh hlt) hnamed hmeets
  have hless {k : Slot} (hk : Relation.TransGen state.1.LeadsTo s k) : rank' k < rank' s := by
    induction hk with
    | single hlink => exact hgraded.lt_of_replacement hlink
    | tail _ hlink ih => exact Nat.lt_trans (hgraded.lt_of_replacement hlink) ih
  exact Nat.lt_irrefl _ (hless hs)

/-- **When merging succeeds.** Let all slots be named and none be replaced. At a threshold of 1 or
more, and below it for up to 61 slots, the rounds always come to rest within those allowed: merging
fails only at a cycle of replacements, and succeeds exactly if no state that is met has one. At a
threshold of 1 or more there is none if no slot comes back to itself through slots that are values. -/
theorem merge_ok_iff {threshold : Float} (hnamed : v.Over Named) (hfresh : v.replacements = .empty)
    (hpace : threshold ≥ 1.0 ∨ v.slots.length ≤ 61) :
    (∀ e, v.merge threshold = .error e → ∃ slot, e = .replacementCycle slot) ∧
    ((∃ m, v.merge threshold = .ok m) ↔ StaysStraight (similar threshold) v) ∧
    (threshold ≥ 1.0 → v.Acyclic → ∃ m, v.merge threshold = .ok m) := by
  have hsettles : Settles (similar threshold) ((v.slots.length + 1) * roundsPerSlot)
      ((v.slots.length + 1) * roundsPerSlot) v v (v.slots.mergeSort Slot.le) := by
    rcases hpace with hexact | hfew
    · exact settles_of_exact hnamed hfresh fun _ _ => sameMembers_of_similar hexact
    · exact settles_of_few hnamed hfresh (similar threshold) hfew
  refine ⟨fun e => mergeBy_error hsettles, ⟨fun ⟨m, hm⟩ _ _ => straight_of_meets hm, ?_⟩,
    fun hexact hacyclic => ?_⟩
  · exact exists_mergeBy_of_straight hfresh hsettles
  · exact exists_mergeBy_of_straight hfresh hsettles
      (staysStraight_of_acyclic (fun _ _ => sameMembers_of_similar hexact) hnamed hfresh hacyclic)

/-- Slots of which two have the same values are merged, and no cycle is met. -/
theorem merge_ok_iff_of_equalSlots :
    equalSlots.Over Named ∧ equalSlots.replacements = .empty ∧
      ((1.0 : Float) ≥ 1.0 ∨ equalSlots.slots.length ≤ 61) ∧ (1.0 : Float) ≥ 1.0 ∧
      equalSlots.Acyclic ∧ (∃ m, equalSlots.merge 1.0 = .ok m) ∧
      StaysStraight (similar 1.0) equalSlots := by
  have hexact : (1.0 : Float) ≥ 1.0 := by decide +kernel
  obtain ⟨-, hiff, hok⟩ := merge_ok_iff named_equalSlots rfl (.inl hexact)
  have hmerged := hok hexact acyclic_equalSlots
  exact ⟨named_equalSlots, rfl, .inl hexact, hexact, acyclic_equalSlots, hmerged, hiff.1 hmerged⟩

/-- Slots of which one has nothing but itself as a value, and another one nothing but that one. -/
def ownValue : SlotValues := ofNames ["A", "B"] [("A", "B"), ("B", "B")]

/-- Slots with a way of two steps to a value that a slot beside the way has too. -/
def bypass : SlotValues :=
  ofNames ["A", "B", "C", "D"] [("A", "B"), ("B", "D"), ("C", "B"), ("C", "x"), ("D", "x")]

/-- **Merging can close a cycle of replacements.** With a slot that has nothing but itself as a value
it fails even at the threshold 1. Below that threshold no slot needs to come back to itself. -/
theorem merge_closes_cycles :
    (ownValue.Over Named ∧ ownValue.replacements = .empty ∧
      ownValue.merge 1.0 = .error (.replacementCycle (.named "B"))) ∧
    (bypass.Over Named ∧ bypass.replacements = .empty ∧ bypass.Acyclic ∧
      bypass.merge 0.5 = .error (.replacementCycle (.named "C"))) := by
  let rank (s : Slot) : Nat :=
    if s = .named "A" then 3 else if s = .named "C" then 3 else if s = .named "B" then 2 else 1
  refine ⟨⟨over_of_entries rfl (by decide), rfl, eq_error_of_tryCatch ?_⟩,
    ⟨over_of_entries rfl (by decide), rfl, acyclic_of_rank rank (by decide),
      eq_error_of_tryCatch ?_⟩⟩
  · rw [merge, mergeBy_of_sorted (by decide)]
    decide +kernel
  · rw [merge, mergeBy_of_sorted (by decide)]
    decide +kernel

end SlotValues

end GrammarInduction
