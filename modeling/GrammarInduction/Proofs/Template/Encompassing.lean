import GrammarInduction.Proofs.SlotValues.Keeping
import GrammarInduction.Proofs.Template.Filling
import GrammarInduction.Proofs.Template.Slots

/-!
# Encompassing is rewriting at once

A template encompasses another one if some filling of it gives the other one with each slot kept or
replaced by one of its values. All ways to cut the other template into values are tried, so that it does
so exactly if the other template comes of it when each occurrence of a slot is kept or replaced, all of
them at once (`RewritesAtOnce`).

* `rewritesAtOnce_iff_exists_fills`: to rewrite at once is to fill with allowed values.
* `RewritesAtOnce.derives`: it is a derivation, so that what is derived from the result is derived from
  the beginning (`encompassing_exact`).
-/

namespace GrammarInduction

variable {f : Slot → List Template} {x y : List Token} {s : Slot} {text : String}

/-! ## Rewriting at once -/

/-- Each occurrence of a slot is kept or replaced by one of its productions. -/
inductive RewritesAtOnce (f : Slot → List Template) : List Token → List Token → Prop
  | nil : RewritesAtOnce f [] []
  | keep (k : Token) {x y : List Token} : RewritesAtOnce f x y → RewritesAtOnce f (k :: x) (k :: y)
  | replace {s : Slot} {t : Template} {x y : List Token} (h : t ∈ f s) :
      RewritesAtOnce f x y → RewritesAtOnce f (.slot s :: x) (t.tokens ++ y)

/-- Rewriting at once is a derivation. -/
theorem RewritesAtOnce.derives (h : RewritesAtOnce f x y) : Derives f x y := by
  induction h with
  | nil => exact .refl f []
  | keep k _ ih => exact (Derives.refl f [k]).append ih
  | replace ht _ ih => exact (derives_of_mem ht).append ih

theorem rewritesAtOnce_nil_iff : RewritesAtOnce f [] y ↔ y = [] := by
  refine ⟨fun h => ?_, ?_⟩
  · cases h
    rfl
  · rintro rfl
    exact .nil

theorem rewritesAtOnce_literal_iff :
    RewritesAtOnce f (.literal text :: x) y ↔ ∃ z, y = .literal text :: z ∧ RewritesAtOnce f x z := by
  refine ⟨fun h => ?_, ?_⟩
  · cases h with
    | keep _ h => exact ⟨_, rfl, h⟩
  · rintro ⟨z, rfl, h⟩
    exact .keep _ h

theorem rewritesAtOnce_slot_iff :
    RewritesAtOnce f (.slot s :: x) y ↔
      ∃ t z, (t = .ofSlot s ∨ t ∈ f s) ∧ y = t.tokens ++ z ∧ RewritesAtOnce f x z := by
  refine ⟨fun h => ?_, ?_⟩
  · cases h with
    | keep _ h => exact ⟨.ofSlot s, _, .inl rfl, rfl, h⟩
    | replace ht h => exact ⟨_, _, .inr ht, rfl, h⟩
  · rintro ⟨t, z, rfl | ht, rfl, h⟩
    · exact .keep _ h
    · exact .replace ht h

namespace Template

open SlotValues

variable {main other : Template} {v v' : SlotValues} {value : Template}

/-- To rewrite at once is to fill with values each of which is the slot itself or one of its
productions. -/
theorem rewritesAtOnce_iff_exists_fills : RewritesAtOnce f x y ↔
    ∃ filling, Fills x filling y ∧
      ∀ p ∈ (x.filterMap Token.slot?).zip filling, p.2 = .ofSlot p.1 ∨ p.2 ∈ f p.1 := by
  induction x generalizing y with
  | nil => simp [rewritesAtOnce_nil_iff, fills_nil_iff]
  | cons k x ih =>
    cases k with
    | literal text =>
      simp only [rewritesAtOnce_literal_iff, fills_literal_iff, ih]
      constructor
      · rintro ⟨z, rfl, filling, hfills, hallowed⟩
        exact ⟨filling, ⟨z, rfl, hfills⟩, hallowed⟩
      · rintro ⟨filling, ⟨z, rfl, hfills⟩, hallowed⟩
        exact ⟨z, rfl, filling, hfills, hallowed⟩
    | slot s =>
      simp only [rewritesAtOnce_slot_iff, fills_slot_iff, ih]
      constructor
      · rintro ⟨t, z, ht, rfl, filling, hfills, hallowed⟩
        exact ⟨t :: filling, ⟨t, filling, z, rfl, rfl, hfills⟩, List.forall_mem_cons.2 ⟨ht, hallowed⟩⟩
      · rintro ⟨_, ⟨t, filling, z, rfl, rfl, hfills⟩, hallowed⟩
        obtain ⟨ht, hallowed⟩ := List.forall_mem_cons.1 hallowed
        exact ⟨t, z, ht, rfl, filling, hfills, hallowed⟩

/-! ## Allowed values -/

theorem single?_eq_some_iff : value.single? = some s ↔ value = .ofSlot s :=
  ⟨eq_ofSlot_of_single?, fun h => h ▸ single?_ofSlot s⟩

theorem allows_iff : allows v.values s value = true ↔
    value = .ofSlot s ∨ (v.getD s).contains value = true := by
  rw [allows, Bool.or_eq_true, beq_iff_eq, single?_eq_some_iff]
  refine or_congr_right ?_
  rw [SlotValues.getD, SlotValues.get?]
  cases v.values.get? s with
  | none => simp
  | some known => rfl

/-- A template of named slots equals only itself. -/
theorem contains_iff_mem_of_named (h : value.Over Named) {set : OrderedSet Template} :
    set.contains value = true ↔ value ∈ set.toList := by
  refine ⟨fun hcontains => ?_, OrderedSet.contains_of_mem⟩
  obtain ⟨t, ht, heq⟩ := OrderedSet.contains_iff.1 hcontains
  rwa [← eq_of_beq_of_named_right heq h]

theorem encompasses_iff : main.encompasses other v.values = true ↔
    ∃ filling ∈ main.fillings other, ∀ p ∈ main.slots.zip filling,
      p.2 = .ofSlot p.1 ∨ (v.getD p.1).contains p.2 = true := by
  simp only [encompasses, List.any_eq_true, List.all_eq_true, allows_iff]

/-- Encompassing goes by values that stay when there are more of them. -/
theorem encompasses_mono (h : main.encompasses other v.values = true)
    (hmore : ∀ s t, (v.getD s).contains t = true → (v'.getD s).contains t = true) :
    main.encompasses other v'.values = true := by
  rw [encompasses_iff] at h ⊢
  obtain ⟨filling, hfilling, hallowed⟩ := h
  exact ⟨filling, hfilling, fun p hp => (hallowed p hp).imp_right (hmore p.1 p.2)⟩

theorem encompasses_iff_rewritesAtOnce (hother : other.Over Named) :
    main.encompasses other v.values = true ↔ RewritesAtOnce v.sets main.tokens other.tokens := by
  rw [encompasses_iff, rewritesAtOnce_iff_exists_fills]
  refine exists_congr fun filling => ?_
  rw [mem_fillings_iff, fillWith_eq_ok_iff]
  refine and_congr_right fun hfills => forall₂_congr fun p hp => or_congr_right ?_
  have hvalue : p.2.Over Named := over_of_mem_fillings
    (mem_fillings_iff.2 (fillWith_eq_ok_iff.2 hfills)) hother (List.of_mem_zip hp).2
  exact contains_iff_mem_of_named hvalue

/-- **Encompassing is exact, and gives inclusion of languages.** A template encompasses another one with
named slots exactly if the other one comes of it when each occurrence of a slot is kept or replaced by one
of its values, independently of the others. Then every sequence of literals that is derivable from the
other template is derivable from this one, and this one still encompasses the other when there are more
values. -/
theorem encompassing_exact (main other : Template) (v : SlotValues) (hother : other.Over Named) :
    (main.encompasses other v.values = true ↔ RewritesAtOnce v.sets main.tokens other.tokens) ∧
      (main.encompasses other v.values = true →
        (∀ w : List String, Derives v.sets other.tokens (w.map .literal) →
          Derives v.sets main.tokens (w.map .literal)) ∧
        ∀ v' : SlotValues, (∀ s, ∀ t ∈ v.sets s, (v'.getD s).contains t = true) →
          main.encompasses other v'.values = true) := by
  have hiff : main.encompasses other v.values = true ↔
      RewritesAtOnce v.sets main.tokens other.tokens := encompasses_iff_rewritesAtOnce hother
  refine ⟨hiff, fun h => ⟨fun w hw => (hiff.1 h).derives.trans hw, fun v' hmore => ?_⟩⟩
  refine encompasses_mono h fun s t ht => ?_
  obtain ⟨t', ht', heq⟩ := OrderedSet.contains_iff.1 ht
  rw [← OrderedSet.contains_congr heq]
  exact hmore s t' ht'

/-- A slot that stands for one or two words. -/
def shortName : SlotValues :=
  .ofPairs [(.named "name", ⟨[.literal "sir"]⟩), (.named "name", ⟨[.literal "old", .literal "friend"]⟩)]

/-- One occurrence of a slot is kept and the other one replaced, also when there are more values. -/
theorem encompassing_exact_of_shortName :
    let main : Template := ⟨[.slot (.named "name"), .slot (.named "name")]⟩
    let other : Template := ⟨[.slot (.named "name"), .literal "old", .literal "friend"]⟩
    let more := shortName.add (.named "name") [.empty]
    other.Over Named ∧ main.encompasses other shortName.values = true ∧
      RewritesAtOnce shortName.sets main.tokens other.tokens ∧
      Derives shortName.sets main.tokens (["sir", "old", "friend"].map .literal) ∧
      (∀ s, ∀ t ∈ shortName.sets s, (more.getD s).contains t = true) ∧
      main.encompasses other more.values = true := by
  intro main other more
  have hother : other.Over Named := by
    unfold Template.Over
    decide
  have hencompasses : main.encompasses other shortName.values = true := by decide +kernel
  obtain ⟨hiff, hrest⟩ := encompassing_exact main other shortName hother
  obtain ⟨hderives, hgrown⟩ := hrest hencompasses
  have hsir : ⟨[.literal "sir"]⟩ ∈ shortName.sets (.named "name") :=
    List.mem_of_getElem? (i := 0) (by decide)
  have hmore : ∀ s ∈ shortName.slots, ∀ t ∈ shortName.sets s, (more.getD s).contains t = true := by
    decide +kernel
  have hmore (s : Slot) (t : Template) (ht : t ∈ shortName.sets s) : (more.getD s).contains t = true :=
    hmore s (mem_slots_of_sets_ne_nil (List.ne_nil_of_mem ht)) t ht
  exact ⟨hother, hencompasses, hiff.1 hencompasses,
    hderives _ ((derives_of_mem hsir).append (.refl _ [.literal "old", .literal "friend"])), hmore,
    hgrown more hmore⟩

end Template

end GrammarInduction
