import GrammarInduction.Proofs.SlotValues.Closed
import GrammarInduction.Proofs.SlotValues.Lossless

/-!
# Exact merging of flat slot values

Slot values are flat if each value is literal or a single slot. Such slot values, if no slot comes
back to itself, expand to the same literal values after merging at a threshold of 1 or more
(`expands_of_merge`): up to the point where slots used once are dissolved, all slots yield what they
have yielded (`agrees_united`), and a slot that is left has gained no value when others are dissolved
in it (`keeps_of_dissolved`). All slots have to be named, for anonymous slots pass for each other as
values (`merge_confuses_anonymous`).
-/

namespace GrammarInduction

namespace SlotValues

variable {u v m : SlotValues} {s k : Slot} {t : Template} {x : List Token} {w : List String}
  {alike : OrderedSet Template → OrderedSet Template → Bool} {rank : Slot → Nat}

/-- The literal values of a slot and of the slots that are its values, and so on. -/
inductive Expands (v : SlotValues) : Slot → Template → Prop
  | value {s : Slot} {t : Template} (ht : t ∈ v.sets s) (hfree : t.hasSlots = false) : Expands v s t
  | through {s k : Slot} {t : Template} (hk : .ofSlot k ∈ v.sets s) (h : Expands v k t) :
      Expands v s t

/-! ## Expanding and yielding -/

theorem tokens_eq_of_yields {f : Slot → List Template} (hfree : t.hasSlots = false)
    (h : Yields f t.tokens w) : t.tokens = w.map .literal := by
  obtain ⟨tokens⟩ := t
  dsimp only [Template.hasSlots] at hfree h ⊢
  induction h with
  | nil => rfl
  | literal text _ ih => rw [List.map_cons, ih (by simpa [Token.isSlot] using hfree)]
  | slot => simp [Token.isSlot] at hfree

theorem exists_tokens_eq (hfree : t.hasSlots = false) : ∃ w : List String, t = ⟨w.map .literal⟩ := by
  obtain ⟨tokens⟩ := t
  rw [Template.hasSlots] at hfree
  induction tokens with
  | nil => exact ⟨[], rfl⟩
  | cons k tokens ih =>
    rw [List.any_cons, Bool.or_eq_false_iff] at hfree
    obtain ⟨w, hw⟩ := ih hfree.2
    cases k with
    | literal text =>
      obtain rfl : tokens = w.map .literal := congrArg Template.tokens hw
      exact ⟨text :: w, rfl⟩
    | slot s => cases hfree.1

theorem Expands.yields (h : v.Expands s t) : ∃ w, t = ⟨w.map .literal⟩ ∧ Yields v.sets [.slot s] w := by
  induction h with
  | value ht hfree =>
    obtain ⟨w, rfl⟩ := exists_tokens_eq hfree
    exact ⟨w, rfl, yields_slot_iff.2 ⟨_, ht, yields_literals _ w⟩⟩
  | through hk _ ih =>
    obtain ⟨w, rfl, hw⟩ := ih
    exact ⟨w, rfl, yields_slot_iff.2 ⟨_, hk, hw⟩⟩

theorem Flat.expands_of_yields (hflat : v.Flat) (h : Yields v.sets x w) (hx : x = [.slot s]) :
    v.Expands s ⟨w.map .literal⟩ := by
  induction h generalizing s with
  | nil => cases hx
  | literal => cases hx
  | @slot s' t x u w' ht hu hw ihu _ =>
    obtain ⟨heq, rfl⟩ := List.cons.inj hx
    obtain rfl := Token.slot.inj heq
    obtain rfl := yields_nil_iff.1 hw
    rw [List.append_nil]
    rcases hflat s' t ht with hfree | ⟨k, rfl⟩
    · rw [← tokens_eq_of_yields hfree hu]
      exact .value ht hfree
    · exact .through ht (ihu rfl)

/-- In flat slot values, to expand to a literal value is to yield it. -/
theorem Flat.expands_iff (hflat : v.Flat) :
    v.Expands s t ↔ ∃ w, t = ⟨w.map .literal⟩ ∧ Yields v.sets [.slot s] w := by
  refine ⟨Expands.yields, ?_⟩
  rintro ⟨w, rfl, hw⟩
  exact hflat.expands_of_yields hw rfl

/-! ## Exact merging -/

theorem agrees_united (hexact : ∀ a b, alike a b = true → a.sameMembers b = true)
    (h : Graded rank v) (hnamed : v.Over Named) (hu : v.united alike = .ok u) : Agrees v u := by
  obtain ⟨settled, compressed, hsettled, hcompressed, rfl⟩ := united_eq_ok_iff.1 hu
  obtain ⟨-, hover, hagrees⟩ := exact_of_meets hexact h hnamed (meets_settle hsettled)
  have hcompress : Agrees settled compressed :=
    ⟨keeps_compressAll hcompressed, keeps_of_compressAll hcompressed⟩
  exact (hagrees.trans hcompress).trans (agrees_followAll (hover.compressAll hcompressed))

/-- Whatever slots are dissolved, the values of a slot that is left yield nothing new. -/
theorem yields_of_mem_inlineAll {steps : Nat} (hs : (inlineAll steps u).Free s)
    (ht : t ∈ (inlineAll steps u).sets s) (hw : Yields u.rules t.tokens w) :
    Yields u.rules [.slot s] w := by
  refine inlineAll_induct (I := fun v => ∀ s, v.Free s → ∀ t ∈ v.sets s, ∀ w,
    Yields u.rules t.tokens w → Yields u.rules [.slot s] w) ?_ ?_ steps s hs t ht w hw
  · exact fun s hs t ht w hw => yields_of_mem_rules (rules_of_unreplaced hs ▸ ht) hw
  · intro v slot container hused hv s hs t ht w hw
    obtain ⟨hfree, hslot⟩ := free_inlineInto_iff.1 hs
    by_cases hcontainer : s = container
    · subst hcontainer
      rcases (mem_sets_of_mem_inlineInto hused ht).2 with ht | ht
      · exact hv s hfree t ht w hw
      · exact hv s hfree _ hused.value w (hv slot hused.free t ht w hw)
    · rw [sets_inlineInto_of_ne hslot hcontainer] at ht
      exact hv s hfree t ht w hw

/-- If closed slot values are left when slots have been dissolved, a slot that is left yields nothing
that it has not yielded before. -/
theorem yields_of_dissolved {steps : Nat} (hm : (inlineAll steps u).compressAll = .ok m)
    (hclosed : m.Closed) (hs : m.Free s) (hw : Yields m.rules [.slot s] w) :
    Yields u.rules [.slot s] w := by
  refine hw.mono_within (P := m.Free) ?_ ?_ ?_
  · intro k hk
    rw [List.mem_singleton] at hk
    exact Token.slot.inj hk ▸ hs
  · intro s hs t ht k hk
    rw [rules_of_unreplaced hs] at ht
    exact hclosed s hs t ht k (Template.mem_slots_iff.2 hk)
  · intro s hs t ht w _ hw
    rw [rules_of_unreplaced hs] at ht
    have hs' := (free_compressAll_iff hm).1 hs
    exact yields_of_mem_inlineAll hs' (sets_compressAll_of_free hm hs' ▸ ht) hw

theorem rules_eq_sets_of_mergeBy (hm : v.mergeBy alike = .ok m) : m.rules = m.sets := by
  obtain ⟨u, steps, -, hm⟩ := exists_united hm
  exact funext (stored_compressAll hm)

/-- **Exact merging keeps flat languages.** Let all slots be named and none be replaced, let each
value be literal or a single slot and no slot come back to itself. After merging at a threshold of 1
or more a slot that is not replaced expands to the same literal values as before, and the slot that
replaces another one expands to all literal values of that one. -/
theorem expands_of_merge {threshold : Float} (hnamed : v.Over Named)
    (hfresh : v.replacements = .empty) (hflat : v.Flat) (hacyclic : v.Acyclic)
    (hexact : threshold ≥ 1.0) (hm : v.merge threshold = .ok m) :
    (∀ s, m.replacement? s = none → ∀ t, m.Expands s t ↔ v.Expands s t) ∧
      ∀ s target, m.replacement? s = some target → ∀ t, v.Expands s t → m.Expands target t := by
  obtain ⟨rank, hlt⟩ := exists_rank_of_acyclic hacyclic
  have hgraded := graded_of_no_replacement hfresh hlt
  have hsame (a b : OrderedSet Template) (h : similar threshold a b = true) :=
    sameMembers_of_similar hexact h
  obtain ⟨u, steps, hu, hdissolved⟩ := exists_united hm
  have hagrees := agrees_united hsame hgraded hnamed hu
  have hkeeps : Keeps v m :=
    keeps_mergeBy hnamed (turnsKeep_of_graded hsame hgraded hnamed) hm
  have hflat' : m.Flat := persists_flat.compressAll
    (persists_flat.inlineAll (persists_flat.united hflat hu) steps) hdissolved
  have hv : v.rules = v.sets := funext (rules_of_no_replacement hfresh)
  have hm' := rules_eq_sets_of_mergeBy hm
  refine ⟨fun s hs t => ?_, fun s target hs t ht => ?_⟩
  · rw [hflat.expands_iff, hflat'.expands_iff, ← hv, ← hm']
    refine exists_congr fun w => and_congr_right fun _ => ⟨fun hw => ?_, hkeeps _ _⟩
    exact hagrees.2 _ _ (yields_of_dissolved hdissolved (closed_of_flat hnamed hm hflat) hs hw)
  · rw [hflat.expands_iff, ← hv] at ht
    rw [hflat'.expands_iff, ← hm']
    obtain ⟨w, rfl, hw⟩ := ht
    obtain ⟨t, ht, hw⟩ := yields_slot_iff.1 (hkeeps _ _ hw)
    rw [rules_of_replacement hs, List.mem_singleton] at ht
    subst ht
    exact ⟨w, rfl, hw⟩

/-- A slot that refers to another one expands to the same values when that one is replaced by it. -/
theorem expands_of_merge_of_equalSlots :
    equalSlots.Over Named ∧ equalSlots.replacements = .empty ∧ equalSlots.Flat ∧
      equalSlots.Acyclic ∧ (1.0 : Float) ≥ 1.0 ∧ ∃ m, equalSlots.merge 1.0 = .ok m ∧
        (∀ t, m.Expands (.named "A") t ↔ equalSlots.Expands (.named "A") t) ∧
        ∀ t, equalSlots.Expands (.named "C") t → m.Expands (.named "A") t := by
  have hflat : equalSlots.Flat := flat_of_slots (by decide)
  have hexact : (1.0 : Float) ≥ 1.0 := by decide +kernel
  obtain ⟨m, hm, hreplaced⟩ : ∃ m, equalSlots.merge 1.0 = .ok m ∧
      (m.replacement? (.named "A"), m.replacement? (.named "C")) = (none, some (.named "A")) := by
    apply exists_of_toOption
    rw [merge, mergeBy_of_sorted (by decide)]
    decide +kernel
  obtain ⟨hfree, htarget⟩ := Prod.mk.inj hreplaced
  obtain ⟨hsame, hmore⟩ := expands_of_merge named_equalSlots rfl hflat acyclic_equalSlots hexact hm
  exact ⟨named_equalSlots, rfl, hflat, acyclic_equalSlots, hexact, m, hm, hsame _ hfree, hmore _ _ htarget⟩

/-- Slots of which two are anonymous and have the values of two others. -/
def anonymousSlots : SlotValues :=
  ofPairs [(.anonymous 0, ⟨[.literal "x"]⟩), (.anonymous 1, ⟨[.literal "y"]⟩),
    (.named "A", ⟨[.literal "x"]⟩), (.named "B", ⟨[.literal "y"]⟩),
    (.named "C", .ofSlot (.named "A")), (.named "C", ⟨[.literal "p"]⟩),
    (.named "D", .ofSlot (.named "B")), (.named "D", ⟨[.literal "p"]⟩)]

/-- **Exact merging confuses anonymous slots**: two of them replace slots that are values, and the
sets with these values then pass for equal. -/
theorem merge_confuses_anonymous :
    anonymousSlots.replacements = .empty ∧
      (∀ s ∈ anonymousSlots.slots, ∀ t ∈ anonymousSlots.sets s, t.hasSlots = false ∨
        ∃ k ∈ anonymousSlots.slots, Named k ∧ t = .ofSlot k) ∧
      anonymousSlots.Acyclic ∧ ∃ m, anonymousSlots.merge 1.0 = .ok m ∧
        m.replacement? (.named "D") = some (.named "C") ∧
        anonymousSlots.Expands (.named "D") ⟨[.literal "y"]⟩ ∧
        ¬ m.Expands (.named "C") ⟨[.literal "y"]⟩ := by
  refine ⟨rfl, by decide, ?_, ?_⟩
  · exact acyclic_of_rank (fun s => if s = .named "C" ∨ s = .named "D" then 1 else 0) (by decide)
  obtain ⟨m, hm, hfacts⟩ : ∃ m, anonymousSlots.merge 1.0 = .ok m ∧
      (m.replacement? (.named "D"), m.sets (.named "C")) =
        (some (.named "C"), [⟨[.literal "p"]⟩, ⟨[.literal "x"]⟩]) := by
    apply exists_of_toOption
    rw [merge, mergeBy_of_sorted (by decide)]
    decide +kernel
  obtain ⟨htarget, hsets⟩ := Prod.mk.inj hfacts
  refine ⟨m, hm, htarget, ?_, fun h => ?_⟩
  · exact .through (k := .named "B") (List.mem_of_getElem? (i := 0) (by decide))
      (.value (List.mem_of_getElem? (i := 0) (by decide)) (by decide))
  · cases h with
    | value ht => simp [hsets] at ht
    | through hk => simp [hsets, Template.ofSlot] at hk

end SlotValues

end GrammarInduction
