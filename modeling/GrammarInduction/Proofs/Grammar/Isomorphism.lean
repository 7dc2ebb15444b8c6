import GrammarInduction.Grammar.Expansion
import GrammarInduction.Grammar.Isomorphism
import GrammarInduction.Proofs.SlotRenaming
import GrammarInduction.Proofs.Walk.Reach
import Mathlib.Data.List.Perm.Subperm

/-!
# The search for isomorphisms

An isomorphism of grammars is a renaming of the slots that the start of the first grammar leads to.
It carries the start to the start, undefined slots to undefined slots, and the productions of a
defined slot to those of its image, in any order (`IsIsomorphism`). The search finds just these
(`isomorphisms_sound_and_complete`).

* `Grows`: pairing productions adds pairs of slots, and new pairs are pending.
* `of_mem_matchings`, `exists_mem_matchings`: the ways to pair the productions of two rules are those
  in which renamed productions are the others.
* `Sound`: in a state that is met, slots that are not pending have rules that correspond. It is what
  makes a complete renaming an isomorphism; and no isomorphism is lost, since each state that is below
  it has a next one below it (`mem_complete`).
-/

namespace GrammarInduction

open Walk (Reaches)

variable {g h : Grammar} {q r : SlotRenaming} {s t slot image : Slot} {p o : Template}
  {own others : List Template}

/-! ## Isomorphisms -/

/-- Both slots are undefined, or the productions of the first, renamed, are those of the second in
some order. -/
inductive Corresponds (r : SlotRenaming) : Option (List Template) → Option (List Template) → Prop
  | undefined : Corresponds r none none
  | defined {ps qs : List Template} (h : (ps.map (Template.rename r.names)).Perm qs) :
      Corresponds r (some ps) (some qs)

/-- A renaming of the slots that the start of `g` leads to makes `h` of `g`. -/
structure IsIsomorphism (g h : Grammar) (r : SlotRenaming) : Prop where
  source_iff : ∀ s, (r.get? s).isSome ↔ Reaches g.references g.start s
  start : r.get? g.start = some h.start
  rules : ∀ s t, r.get? s = some t → Corresponds r (g.rules.get? s) (h.rules.get? t)

theorem Corresponds.mono {a b : Option (List Template)} (h : Corresponds r a b) (hle : r ≤ q)
    (hslots : ∀ ps, a = some ps → ∀ p ∈ ps, ∀ s ∈ p.slots, (r.get? s).isSome) :
    Corresponds q a b := by
  cases h with
  | undefined => exact .undefined
  | @defined ps qs h =>
    have hmap : ps.map (Template.rename q.names) = ps.map (Template.rename r.names) :=
      List.map_congr_left fun p hp => SlotRenaming.rename_eq_of_le hle (hslots ps rfl p hp)
    exact .defined (hmap ▸ h)

theorem Corresponds.eq_none_iff {a b : Option (List Template)} (h : Corresponds r a b) :
    a = none ↔ b = none := by
  cases h <;> simp

theorem Corresponds.getD_perm {a b : Option (List Template)} (h : Corresponds r a b) :
    ((a.getD []).map (Template.rename r.names)).Perm (b.getD []) := by
  cases h with
  | undefined => exact .refl _
  | defined hperm => exact hperm

theorem Corresponds.isSome_eq {a b : Option (List Template)} (h : Corresponds r a b) :
    a.isSome = b.isSome := by
  cases h <;> rfl

theorem Corresponds.exists_perm {a b : Option (List Template)} (h : Corresponds r a b)
    (ha : a = some own) :
    ∃ others, b = some others ∧ (own.map (Template.rename r.names)).Perm others := by
  cases h with
  | undefined => cases ha
  | defined hperm => exact ⟨_, rfl, Option.some.inj ha ▸ hperm⟩

namespace Isomorphism

/-! ## Growing states -/

/-- A state grows by pairs with given sources: those that are new are pending. -/
structure Grows (sources : List Slot) (state state' : Partial) : Prop where
  le : state.1 ≤ state'.1
  source_iff : ∀ s, (state'.1.get? s).isSome ↔ (state.1.get? s).isSome ∨ s ∈ sources
  pending_iff : ∀ p, p ∈ state'.2 ↔
    p ∈ state.2 ∨ state'.1.get? p.1 = some p.2 ∧ state.1.get? p.1 = none
  size_eq : state'.1.size + state.2.length = state.1.size + state'.2.length

variable {state state' : Partial}

theorem grows_nil (state : Partial) : Grows [] state state where
  le := SlotRenaming.le_refl _
  source_iff s := by simp
  pending_iff p := by
    refine ⟨.inl, fun hp => hp.elim id fun hp => ?_⟩
    rw [hp.1] at hp
    cases hp.2
  size_eq := rfl

theorem Grows.append {mid : Partial} {as bs : List Slot} (h : Grows as state mid)
    (h' : Grows bs mid state') : Grows (as ++ bs) state state' where
  le := SlotRenaming.le_trans h.le h'.le
  source_iff s := by rw [h'.source_iff, h.source_iff, List.mem_append, or_assoc]
  pending_iff p := by
    rw [h'.pending_iff, h.pending_iff]
    have hle := h.le p.1
    have hle' := h'.le p.1
    constructor
    · rintro ((hp | ⟨hp, hnone⟩) | ⟨hp, hnone⟩)
      · exact .inl hp
      · exact .inr ⟨hle' _ hp, hnone⟩
      · refine .inr ⟨hp, Option.eq_none_iff_forall_ne_some.2 fun t ht => ?_⟩
        rw [hle t ht] at hnone
        cases hnone
    · rintro (hp | ⟨hp, hnone⟩)
      · exact .inl (.inl hp)
      · cases hget : mid.1.get? p.1 with
        | none => exact .inr ⟨hp, rfl⟩
        | some t =>
          refine .inl (.inr ⟨?_, hnone⟩)
          rw [← hp, hle' t hget]
  size_eq := by
    have := h.size_eq
    have := h'.size_eq
    omega

theorem grows_insert {names extended : SlotRenaming} {pending : List (Slot × Slot)}
    (h : names.insert? slot image = some extended) :
    Grows [slot] (names, pending)
      (extended, if names.get? slot == some image then pending else (slot, image) :: pending) := by
  have hself := SlotRenaming.get?_insert?_self h
  have hle := SlotRenaming.le_of_insert? h
  have hsource (s : Slot) :
      (extended.get? s).isSome ↔ (names.get? s).isSome ∨ s ∈ [slot] := by
    rw [List.mem_singleton]
    constructor
    · intro hs
      obtain ⟨t, ht⟩ := Option.isSome_iff_exists.1 hs
      rcases SlotRenaming.get?_insert?_cases h ht with heq | hs
      · exact .inr (Prod.mk.inj heq).1
      · exact .inl (by simp [hs])
    · rintro (hs | rfl)
      · obtain ⟨t, ht⟩ := Option.isSome_iff_exists.1 hs
        simp [hle s t ht]
      · simp [hself]
  by_cases hknown : names.get? slot = some image
  · rw [if_pos (by simpa using hknown)]
    rw [SlotRenaming.insert?_of_known hknown] at h
    obtain rfl := Option.some.inj h
    exact ⟨hle, hsource, (grows_nil (names, pending)).pending_iff, rfl⟩
  · rw [if_neg (by simpa using hknown)]
    obtain ⟨hnone, hsize⟩ := SlotRenaming.size_insert?_of_new h hknown
    refine ⟨hle, hsource, fun p => ?_, ?_⟩
    · rw [List.mem_cons, or_comm]
      refine or_congr_right ⟨?_, ?_⟩
      · rintro rfl
        exact ⟨hself, hnone⟩
      · rintro ⟨hp, hpnone⟩
        rcases SlotRenaming.get?_insert?_cases h hp with heq | hp
        · exact heq
        · rw [hp] at hpnone
          cases hpnone
    · dsimp only
      rw [hsize, List.length_cons]
      omega

/-! ## Pairing productions -/

theorem of_pairSlots? {pairs : List (Slot × Slot)} (h : pairSlots? pairs state = some state') :
    Grows (pairs.map Prod.fst) state state' ∧ ∀ p ∈ pairs, state'.1.get? p.1 = some p.2 := by
  induction pairs generalizing state with
  | nil =>
    obtain rfl := Option.some.inj h
    exact ⟨grows_nil state, nofun⟩
  | cons pair pairs ih =>
    obtain ⟨slot, image⟩ := pair
    obtain ⟨names, pending⟩ := state
    unfold pairSlots? at h
    dsimp only at h
    split at h
    · cases h
    next extended hextended =>
      obtain ⟨hgrows, hpairs⟩ := ih h
      refine ⟨(grows_insert hextended).append hgrows, fun p hp => ?_⟩
      rcases List.mem_cons.1 hp with rfl | hp
      · exact hgrows.le _ _ (SlotRenaming.get?_insert?_self hextended)
      · exact hpairs p hp

theorem exists_pairSlots? {pairs : List (Slot × Slot)} (hle : state.1 ≤ q)
    (hpairs : ∀ p ∈ pairs, q.get? p.1 = some p.2) :
    ∃ state', pairSlots? pairs state = some state' ∧ state'.1 ≤ q := by
  induction pairs generalizing state with
  | nil => exact ⟨state, rfl, hle⟩
  | cons pair pairs ih =>
    obtain ⟨slot, image⟩ := pair
    obtain ⟨names, pending⟩ := state
    obtain ⟨extended, hextended, hbelow⟩ :=
      SlotRenaming.exists_insert? hle (hpairs _ List.mem_cons_self)
    unfold pairSlots?
    simp only [hextended]
    exact ih hbelow fun p hp => hpairs p (.tail _ hp)

/-- A production whose slots a renaming pairs with those of another one becomes that one. -/
theorem rename_eq_of_zip (hshape : p.sameShape o = true)
    (hzip : ∀ x ∈ p.slots.zip o.slots, r.get? x.1 = some x.2) :
    p.rename r.names = o ∧ (p.slots.zip o.slots).map Prod.fst = p.slots := by
  obtain ⟨tokens⟩ := p
  obtain ⟨tokens'⟩ := o
  rw [Template.sameShape, beq_iff_eq] at hshape
  dsimp only [Template.shape, Template.slots, Template.rename] at hshape hzip ⊢
  rw [Template.mk.injEq]
  induction tokens generalizing tokens' with
  | nil =>
    obtain rfl := List.map_eq_nil_iff.1 hshape.symm
    exact ⟨rfl, rfl⟩
  | cons k tokens ih =>
    cases tokens' with
    | nil => cases hshape
    | cons k' tokens' =>
      rw [List.map_cons, List.map_cons, List.cons.injEq] at hshape
      obtain ⟨hk, hshape⟩ := hshape
      cases k with
      | literal text =>
        cases k' with
        | slot s => cases hk
        | literal text' =>
          obtain rfl := Option.some.inj hk
          obtain ⟨htokens, hslots⟩ := ih tokens' hshape hzip
          exact ⟨congrArg _ htokens, hslots⟩
      | slot s =>
        cases k' with
        | literal text' => cases hk
        | slot s' =>
          obtain ⟨htokens, hslots⟩ := ih tokens' hshape fun x hx => hzip x (.tail _ hx)
          have hs : r.get? s = some s' := hzip (s, s') List.mem_cons_self
          refine ⟨?_, congrArg _ hslots⟩
          rw [List.map_cons, htokens, SlotRenaming.renameToken_slot hs]

theorem get?_of_mem_zip_rename {x : Slot × Slot} (hslots : ∀ s ∈ p.slots, (r.get? s).isSome)
    (hx : x ∈ p.slots.zip (p.rename r.names).slots) : r.get? x.1 = some x.2 := by
  obtain ⟨tokens⟩ := p
  dsimp only [Template.slots, Template.rename] at hslots hx
  induction tokens with
  | nil => cases hx
  | cons k tokens ih =>
    cases k with
    | literal text => exact ih hslots hx
    | slot s =>
      rcases List.mem_cons.1 hx with rfl | hx
      · obtain ⟨t, ht⟩ := Option.isSome_iff_exists.1 (hslots s List.mem_cons_self)
        simp only [SlotRenaming.get?_names, ht, Option.getD_some]
      · exact ih (fun s hs => hslots s (.tail _ hs)) hx

theorem of_pairProductions? (h : pairProductions? p o state = some state') :
    Grows p.slots state state' ∧ p.rename state'.1.names = o := by
  unfold pairProductions? at h
  split at h
  next hshape =>
    obtain ⟨hgrows, hzip⟩ := of_pairSlots? h
    obtain ⟨hrename, hslots⟩ := rename_eq_of_zip hshape hzip
    exact ⟨hslots ▸ hgrows, hrename⟩
  · cases h

theorem exists_pairProductions? (hle : state.1 ≤ q) (hslots : ∀ s ∈ p.slots, (q.get? s).isSome) :
    ∃ state', pairProductions? p (p.rename q.names) state = some state' ∧ state'.1 ≤ q := by
  have hshape : p.sameShape (p.rename q.names) = true := by
    rw [Template.sameShape, Template.shape_rename, beq_self_eq_true]
  rw [pairProductions?, if_pos hshape]
  exact exists_pairSlots? hle fun x hx => get?_of_mem_zip_rename hslots hx

/-! ## Pairing all productions of two rules -/

theorem perm_of_mem_picks {α : Type} {l rest : List α} {a : α} (h : (a, rest) ∈ picks l) :
    (a :: rest).Perm l := by
  induction l generalizing a rest with
  | nil => cases h
  | cons b l ih =>
    rcases List.mem_cons.1 h with heq | h
    · obtain ⟨rfl, rfl⟩ := Prod.mk.inj heq
      exact .refl _
    · obtain ⟨x, hx, heq⟩ := List.mem_map.1 h
      obtain ⟨rfl, rfl⟩ := Prod.mk.inj heq
      exact (List.Perm.swap b x.1 x.2).trans ((ih hx).cons b)

theorem exists_mem_picks {α : Type} {l : List α} {a : α} (h : a ∈ l) :
    ∃ rest, (a, rest) ∈ picks l := by
  induction l with
  | nil => cases h
  | cons b l ih =>
    rcases List.mem_cons.1 h with rfl | h
    · exact ⟨l, List.mem_cons_self⟩
    · obtain ⟨rest, hrest⟩ := ih h
      exact ⟨b :: rest, .tail _ (List.mem_map.2 ⟨(a, rest), hrest, rfl⟩)⟩

theorem mem_matchings_cons_iff : state' ∈ matchings (p :: own) others state ↔
    ∃ other rest, (other, rest) ∈ picks others ∧
      ∃ mid, pairProductions? p other state = some mid ∧ state' ∈ matchings own rest mid := by
  rw [matchings, List.mem_flatMap]
  constructor
  · rintro ⟨⟨other, rest⟩, hpick, h⟩
    dsimp only at h
    split at h
    next mid hmid => exact ⟨other, rest, hpick, mid, hmid, h⟩
    · cases h
  · rintro ⟨other, rest, hpick, mid, hmid, h⟩
    exact ⟨(other, rest), hpick, by simpa only [hmid] using h⟩

/-- Productions that are paired become one another by the renaming. -/
theorem of_mem_matchings (hlength : own.length = others.length)
    (h : state' ∈ matchings own others state) :
    Grows (own.flatMap Template.slots) state state' ∧
      (own.map (Template.rename state'.1.names)).Perm others := by
  induction own generalizing others state with
  | nil =>
    obtain rfl := List.length_eq_zero_iff.1 hlength.symm
    obtain rfl := List.mem_singleton.1 h
    exact ⟨grows_nil state', .nil⟩
  | cons p own ih =>
    obtain ⟨other, rest, hpick, mid, hmid, h⟩ := mem_matchings_cons_iff.1 h
    have hperm := perm_of_mem_picks hpick
    have hrest : own.length = rest.length := by
      have := hperm.length_eq
      simp only [List.length_cons] at this hlength
      omega
    obtain ⟨hgrows, hrename⟩ := of_pairProductions? hmid
    obtain ⟨hgrows', hown⟩ := ih hrest h
    refine ⟨hgrows.append hgrows', List.Perm.trans ?_ hperm⟩
    have hslots : ∀ s ∈ p.slots, (mid.1.get? s).isSome := fun s hs =>
      (hgrows.source_iff s).2 (.inr hs)
    rw [List.map_cons, SlotRenaming.rename_eq_of_le hgrows'.le hslots, hrename]
    exact hown.cons other

/-- The pairing of productions by a renaming is found from below it. -/
theorem exists_mem_matchings (hle : state.1 ≤ q)
    (hslots : ∀ p ∈ own, ∀ s ∈ p.slots, (q.get? s).isSome)
    (hperm : (own.map (Template.rename q.names)).Perm others) :
    ∃ state' ∈ matchings own others state, state'.1 ≤ q := by
  induction own generalizing others state with
  | nil => exact ⟨state, List.mem_singleton_self state, hle⟩
  | cons p own ih =>
    rw [List.map_cons] at hperm
    obtain ⟨rest, hpick⟩ := exists_mem_picks (hperm.subset List.mem_cons_self)
    obtain ⟨mid, hmid, hbelow⟩ :=
      exists_pairProductions? hle (hslots p List.mem_cons_self)
    have hrest := (hperm.trans (perm_of_mem_picks hpick).symm).cons_inv
    obtain ⟨state', hmem, hbelow'⟩ := ih hbelow (fun p hp => hslots p (.tail _ hp)) hrest
    exact ⟨state', mem_matchings_cons_iff.2 ⟨_, rest, hpick, mid, hmid, hmem⟩, hbelow'⟩

/-! ## The search -/

/-- What is known of a state that is met: the slots that are not pending have rules that correspond,
and the slots in them are paired. -/
structure Sound (g h : Grammar) (state : Partial) : Prop where
  start : state.1.get? g.start = some h.start
  pending : ∀ p ∈ state.2, state.1.get? p.1 = some p.2
  reached : ∀ s, (state.1.get? s).isSome → Reaches g.references g.start s
  done : ∀ s t, state.1.get? s = some t → (s, t) ∉ state.2 →
    Corresponds state.1 (g.rules.get? s) (h.rules.get? t) ∧
      ∀ k ∈ g.references s, (state.1.get? k).isSome

theorem references_of_rule (hrule : g.rules.get? slot = some own) :
    g.references slot = own.flatMap Template.slots := by
  rw [Grammar.references, Grammar.productions, hrule, Option.getD_some]

theorem references_of_undefined (hrule : g.rules.get? slot = none) : g.references slot = [] := by
  rw [Grammar.references, Grammar.productions, hrule]
  rfl

theorem get?_ofPairs_singleton (slot image s : Slot) :
    (SlotRenaming.ofPairs [(slot, image)]).get? s = if slot = s then some image else none := by
  show (List.find? _ [(slot, image)]).map Prod.snd = _
  by_cases hs : slot = s <;> simp [hs]

/-- The search begins with the starts. -/
theorem sound_start (g h : Grammar) : Sound g h
    (SlotRenaming.ofPairs [(g.start, h.start)], [(g.start, h.start)]) := by
  refine ⟨by rw [get?_ofPairs_singleton, if_pos rfl], fun p hp => ?_, fun s hs => ?_,
    fun s t ht hpending => ?_⟩
  · rw [List.mem_singleton.1 hp, get?_ofPairs_singleton, if_pos rfl]
  · rw [get?_ofPairs_singleton] at hs
    split at hs
    next heq => exact heq ▸ .refl _ _
    · cases hs
  · rw [get?_ofPairs_singleton] at ht
    split at ht
    next heq => simp [heq, Option.some.inj ht] at hpending
    · cases ht

theorem start_le (hq : IsIsomorphism g h q) : SlotRenaming.ofPairs [(g.start, h.start)] ≤ q := by
  intro s t hs
  rw [get?_ofPairs_singleton] at hs
  split at hs
  next heq => rw [← heq, ← Option.some.inj hs, hq.start]
  · cases hs

variable {names : SlotRenaming} {pending : List (Slot × Slot)}

/-- Slots without rules are done. -/
theorem Sound.undefined (hs : Sound g h (names, (slot, image) :: pending))
    (hg : g.rules.get? slot = none) (hh : h.rules.get? image = none) :
    Sound g h (names, pending) where
  start := hs.start
  pending p hp := hs.pending p (.tail _ hp)
  reached := hs.reached
  done s t ht hpending := by
    by_cases heq : (s, t) = (slot, image)
    · obtain ⟨rfl, rfl⟩ := Prod.mk.inj heq
      rw [hg, hh, references_of_undefined hg]
      exact ⟨.undefined, nofun⟩
    · exact hs.done s t ht (by simp [hpending, heq])

/-- Slots whose productions have been paired are done. -/
theorem Sound.matched (hs : Sound g h (names, (slot, image) :: pending))
    (hg : g.rules.get? slot = some own) (hh : h.rules.get? image = some others)
    (hlength : own.length = others.length)
    (hmem : state' ∈ matchings own others (names, pending)) : Sound g h state' := by
  obtain ⟨hgrows, hperm⟩ := of_mem_matchings hlength hmem
  rw [← references_of_rule hg] at hgrows
  have hslot : names.get? slot = some image := hs.pending _ List.mem_cons_self
  refine ⟨hgrows.le _ _ hs.start, fun p hp => ?_, fun s hsome => ?_, fun s t ht hpending => ?_⟩
  · rcases (hgrows.pending_iff p).1 hp with hp | hp
    · exact hgrows.le _ _ (hs.pending p (.tail _ hp))
    · exact hp.1
  · rcases (hgrows.source_iff s).1 hsome with hsome | href
    · exact hs.reached s hsome
    · exact (hs.reached slot (by simp [hslot])).trans (Walk.reaches_of_mem href)
  · have hold : names.get? s = some t := by
      cases hget : names.get? s with
      | none => exact absurd ((hgrows.pending_iff (s, t)).2 (.inr ⟨ht, hget⟩)) hpending
      | some t' => rw [← ht, hgrows.le s t' hget]
    by_cases heq : (s, t) = (slot, image)
    · obtain ⟨rfl, rfl⟩ := Prod.mk.inj heq
      rw [hg, hh]
      exact ⟨.defined hperm, fun k hk => (hgrows.source_iff k).2 (.inr hk)⟩
    · have hpending' : (s, t) ∉ pending := fun hp =>
        hpending ((hgrows.pending_iff (s, t)).2 (.inl hp))
      obtain ⟨hrules, hslots⟩ := hs.done s t hold (by simp [hpending', heq])
      refine ⟨hrules.mono hgrows.le fun ps hps p hp k hk => ?_, fun k hk =>
        (hgrows.source_iff k).2 (.inl (hslots k hk))⟩
      exact hslots k (Grammar.mem_references g hps hp hk)

/-- A state in which nothing is pending is an isomorphism. -/
theorem Sound.isIsomorphism (hs : Sound g h (names, [])) : IsIsomorphism g h names where
  source_iff s := by
    refine ⟨hs.reached s, fun hr => ?_⟩
    refine hr.induct (P := fun s => (names.get? s).isSome) (by simp [hs.start]) ?_
    intro s hsome k hk
    obtain ⟨t, ht⟩ := Option.isSome_iff_exists.1 hsome
    exact (hs.done s t ht List.not_mem_nil).2 k hk
  start := hs.start
  rules s t ht := (hs.done s t ht List.not_mem_nil).1

theorem complete_nil (steps : Nat) : complete g h steps (names, []) = [names] := by
  cases steps <;> rfl

/-- Whatever the search completes is an isomorphism. -/
theorem isIsomorphism_of_mem_complete {steps : Nat} (hs : Sound g h state)
    (hr : r ∈ complete g h steps state) : IsIsomorphism g h r := by
  induction steps generalizing state with
  | zero =>
    obtain ⟨names, _ | ⟨⟨slot, image⟩, pending⟩⟩ := state
    · rw [complete_nil] at hr
      exact List.mem_singleton.1 hr ▸ hs.isIsomorphism
    · cases hr
  | succ steps ih =>
    obtain ⟨names, _ | ⟨⟨slot, image⟩, pending⟩⟩ := state
    · rw [complete_nil] at hr
      exact List.mem_singleton.1 hr ▸ hs.isIsomorphism
    · unfold complete at hr
      split at hr
      next hg hh => exact ih (hs.undefined hg hh) hr
      next own other hg hh =>
        split at hr
        next hlength =>
          obtain ⟨state', hmem, hr⟩ := List.mem_flatMap.1 hr
          exact ih (hs.matched hg hh hlength hmem) hr
        · cases hr
      · cases hr

/-- The slots that the start leads to are the start and slots in productions. -/
theorem mem_of_reaches_start {s : Slot} (h : Reaches g.references g.start s) :
    s ∈ g.start :: g.slots.flatMap g.references := by
  refine h.induct List.mem_cons_self fun s _ k hk => ?_
  refine .tail _ (List.mem_flatMap.2 ⟨s, ?_, hk⟩)
  cases hrule : g.rules.get? s with
  | none =>
    rw [references_of_undefined hrule] at hk
    cases hk
  | some ps => exact List.mem_map_of_mem (OrderedMap.get?_eq_some_iff.1 hrule)

/-- A state has no more pairs than the grammar has slots. -/
theorem Sound.size_le (hs : Sound g h state) : state.1.size ≤ g.slotBound := by
  have hsub : state.1.pairs.map Prod.fst ⊆ g.start :: g.slots.flatMap g.references := by
    intro s hmem
    obtain ⟨p, hp, rfl⟩ := List.mem_map.1 hmem
    have hget := SlotRenaming.get?_eq_some_iff.2 hp
    exact mem_of_reaches_start (hs.reached p.1 (by simp [hget]))
  have := (List.subperm_of_subset state.1.nodup_sources hsub).length_le
  rw [List.length_map, List.length_cons] at this
  rw [Grammar.slotBound, SlotRenaming.size]
  omega

/-- An isomorphism is found from every state below it. -/
theorem mem_complete {steps : Nat} (hq : IsIsomorphism g h q) (hs : Sound g h state)
    (hle : state.1 ≤ q) (hsteps : state.2.length + g.slotBound ≤ steps + state.1.size) :
    q ∈ complete g h steps state := by
  have hnil {names : SlotRenaming} (hs : Sound g h (names, [])) (hle : names ≤ q) : names = q :=
    SlotRenaming.eq_of_le hle fun s hsome =>
      (hs.isIsomorphism.source_iff s).2 ((hq.source_iff s).1 hsome)
  induction steps generalizing state with
  | zero =>
    obtain ⟨names, _ | ⟨⟨slot, image⟩, pending⟩⟩ := state
    · rw [complete_nil]
      exact List.mem_singleton.2 (hnil hs hle).symm
    · have hsize : names.size ≤ g.slotBound := hs.size_le
      dsimp only [List.length_cons] at hsteps
      omega
  | succ steps ih =>
    obtain ⟨names, _ | ⟨⟨slot, image⟩, pending⟩⟩ := state
    · rw [complete_nil]
      exact List.mem_singleton.2 (hnil hs hle).symm
    · dsimp only [List.length_cons] at hsteps
      have hslot : q.get? slot = some image := hle _ _ (hs.pending _ List.mem_cons_self)
      unfold complete
      cases hg : g.rules.get? slot with
      | none =>
        obtain hh : h.rules.get? image = none := (hq.rules slot image hslot).eq_none_iff.1 hg
        rw [hh]
        exact ih (hs.undefined hg hh) hle (by dsimp only; omega)
      | some own =>
        obtain ⟨other, hh, hperm⟩ := (hq.rules slot image hslot).exists_perm hg
        rw [hh]
        have hlength : own.length = other.length := by simpa using hperm.length_eq
        have hslots : ∀ p ∈ own, ∀ s ∈ p.slots, (q.get? s).isSome := by
          intro p hp s hk
          refine (hq.source_iff s).2 (((hq.source_iff slot).1 (by simp [hslot])).trans ?_)
          exact Walk.reaches_of_mem (Grammar.mem_references g hg hp hk)
        obtain ⟨state', hmem, hbelow⟩ : ∃ state' ∈ matchings own other (names, pending),
            state'.1 ≤ q := exists_mem_matchings hle hslots hperm
        have hsize := (of_mem_matchings hlength hmem).1.size_eq
        dsimp only at hsize ⊢
        rw [if_pos hlength, List.mem_flatMap]
        exact ⟨state', hmem, ih (hs.matched hg hh hlength hmem) hbelow (by omega)⟩

end Isomorphism

namespace Grammar

open Isomorphism

theorem mem_isomorphisms_iff :
    r ∈ g.isomorphisms h ↔ g.rules.size = h.rules.size ∧ IsIsomorphism g h r := by
  unfold isomorphisms
  split
  next hsize =>
    rw [and_iff_right hsize]
    constructor
    · intro hr
      exact isIsomorphism_of_mem_complete (sound_start g h) (OrderedSet.mem_of_mem_ofList hr)
    · intro hr
      refine OrderedSet.mem_insertAll.2 (.inr ?_)
      exact mem_complete hr (sound_start g h) (start_le hr) (Nat.le_of_eq (Nat.add_comm _ _))
  next hsize => simp [hsize]

theorem nodup_isomorphisms (g h : Grammar) : (g.isomorphisms h).Nodup := by
  unfold isomorphisms
  split
  · exact OrderedSet.nodup_toList _
  · exact List.nodup_nil

theorem isIsomorphic_iff : g.isIsomorphic h = true ↔ ∃ r, r ∈ g.isomorphisms h := by
  rw [isIsomorphic, Bool.not_eq_true', List.isEmpty_eq_false_iff_exists_mem]

/-- **The search for isomorphisms is sound and complete.** If the grammars have as many rules, it
lists their isomorphisms, each once, and otherwise nothing. Grammars are isomorphic if there is
one. -/
theorem isomorphisms_sound_and_complete (g h : Grammar) :
    (∀ r, r ∈ g.isomorphisms h ↔ g.rules.size = h.rules.size ∧ IsIsomorphism g h r) ∧
      (g.isomorphisms h).Nodup ∧ (g.isIsomorphic h = true ↔ ∃ r, r ∈ g.isomorphisms h) :=
  ⟨fun _ => mem_isomorphisms_iff, nodup_isomorphisms g h, isIsomorphic_iff⟩

end Grammar

end GrammarInduction
