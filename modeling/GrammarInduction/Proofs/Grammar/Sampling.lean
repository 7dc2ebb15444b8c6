import GrammarInduction.Grammar.Random
import GrammarInduction.Proofs.Grammar.Exhaustive
import GrammarInduction.Proofs.Walk.Sweep

/-!
# Random generation

A template that is generated at random is one of those that are listed, unless expanding has come upon
a slot that is defined without productions (`random_generation_within`): random generation leaves such
a slot in place, as it does an undefined one, whereas no template is listed that would have to expand
it (`random_generation_strays`).

* `pick_spec`: a choice among some productions is the place of one of them.
* `mapWords_spec`: what holds of one expansion with any words holds of each of several.
* `generates_or_stays`: the statement about one slot, by induction on the levels.
-/

namespace GrammarInduction

variable {values A B : Slot → Template → Prop} {x y : List Token}

/-! ## Drawing words -/

/-- All numbers of a list are 32-bit words. -/
abbrev AreWords (words : List Nat) : Prop := ∀ w ∈ words, w < wordCount

theorem pick_spec {n : Nat} {words : List Nat} (hn : 0 < n) (h : AreWords words) :
    (pick n words).1 < n ∧ AreWords (pick n words).2 := by
  induction words with
  | nil => exact ⟨hn, h⟩
  | cons word words ih =>
    have hrest : AreWords words := fun w hw => h w (.tail _ hw)
    unfold pick
    split
    · refine ⟨Nat.div_lt_of_lt_mul ?_, hrest⟩
      exact Nat.mul_lt_mul_of_pos_right (h word List.mem_cons_self) hn
    · exact ih hrest

theorem mapWords_spec {α : Type} {β : Type} {f : α → List Nat → β × List Nat} {R : α → β → Prop}
    {as : List α} (hf : ∀ a ∈ as, ∀ words, AreWords words → R a (f a words).1 ∧
      AreWords (f a words).2) {words : List Nat} (h : AreWords words) :
    List.Forall₂ R as (mapWords f as words).1 ∧ AreWords (mapWords f as words).2 := by
  induction as generalizing words with
  | nil => exact ⟨.nil, h⟩
  | cons a as ih =>
    obtain ⟨ha, hwords⟩ := hf a List.mem_cons_self words h
    obtain ⟨has, hrest⟩ := ih (fun b hb => hf b (.tail _ hb)) hwords
    exact ⟨.cons ha has, hrest⟩

/-! ## Filling each occurrence of a slot -/

theorem filledFrom_fillTokens {ts : List Template}
    (h : List.Forall₂ values (x.filterMap Token.slot?) ts) :
    FilledFrom values x (Template.fillTokens x ts) := by
  induction x generalizing ts with
  | nil => exact .nil
  | cons k x ih =>
    cases k with
    | literal text => exact .literal text (ih h)
    | slot s =>
      obtain ⟨t, ts, ht, hts, rfl⟩ := List.forall₂_cons_left_iff.1 h
      exact .slot ht (ih hts)

/-- If each value has one of two properties, all have the first one, or some has the second one and
stands in what comes out. -/
theorem FilledFrom.forall_or_exists (h : FilledFrom (fun s t => A s t ∨ B s t) x y) :
    FilledFrom A x y ∨ ∃ s t, .slot s ∈ x ∧ B s t ∧ t.tokens ⊆ y := by
  induction h with
  | nil => exact .inl .nil
  | literal text _ ih =>
    refine ih.imp (.literal text) ?_
    rintro ⟨s, t, hs, ht, hsub⟩
    exact ⟨s, t, .tail _ hs, ht, List.Subset.trans hsub (List.subset_cons_self _ _)⟩
  | slot ht _ ih =>
    rcases ht with ht | ht
    · refine ih.imp (.slot ht) ?_
      rintro ⟨s, t, hs, ht, hsub⟩
      exact ⟨s, t, .tail _ hs, ht, List.Subset.trans hsub (List.subset_append_right _ _)⟩
    · exact .inr ⟨_, _, List.mem_cons_self, ht, List.subset_append_left _ _⟩

namespace Grammar

variable {g : Grammar} {depth : Nat} {s : Slot} {t : Template} {words : List Nat}

/-! ## Slots without productions -/

/-- Whether expanding a slot through so many levels comes upon no slot that is defined without
productions. -/
def Productive (g : Grammar) : Nat → Slot → Prop
  | 0, _ => True
  | depth + 1, s =>
    match g.rules.get? s with
    | some ps => ps ≠ [] ∧ ∀ p ∈ ps, ∀ k ∈ p.slots, g.Productive depth k
    | none => True

/-- Whether a template has a slot that is defined without productions and can be come upon by expanding
`s` through so many levels. -/
def Stays (g : Grammar) (depth : Nat) (s : Slot) (t : Template) : Prop :=
  ¬ g.Productive depth s ∧ ∃ k ∈ t.slots, g.rules.get? k = some []

theorem stays_ofSlot (h : g.rules.get? s = some []) : g.Stays (depth + 1) s (.ofSlot s) := by
  refine ⟨fun hproductive => ?_, s, by simp [Template.slots_ofSlot], h⟩
  unfold Productive at hproductive
  rw [h] at hproductive
  exact hproductive.1 rfl

/-- What stays in the value of an occurrence stays in the template. -/
theorem Stays.of_value {ps : List Template} {p v : Template} {k : Slot}
    (hrule : g.rules.get? s = some ps) (hp : p ∈ ps) (hk : k ∈ p.slots) (h : g.Stays depth k v)
    (hsub : v.tokens ⊆ t.tokens) : g.Stays (depth + 1) s t := by
  obtain ⟨hnot, l, hl, hempty⟩ := h
  refine ⟨fun hproductive => hnot ?_, l, ?_, hempty⟩
  · unfold Productive at hproductive
    rw [hrule] at hproductive
    exact hproductive.2 p hp k hk
  · exact Template.mem_slots_iff.2 (hsub (Template.mem_slots_iff.1 hl))

/-! ## What is generated at random -/

theorem pickProduction_spec {ps : List Template} (hrule : g.rules.get? s = some ps) (hps : ps ≠ [])
    (h : AreWords words) : ∃ p ∈ ps, ∃ rest, g.pickProduction s words = (some p, rest) ∧
      AreWords rest := by
  have hproductions : g.productions s = ps := productions_of_get? hrule
  obtain ⟨hlt, hrest⟩ := pick_spec (List.length_pos_iff.2 hps) h
  refine ⟨ps[(pick ps.length words).1], List.getElem_mem hlt, _, ?_, hrest⟩
  simp only [pickProduction, hproductions, List.isEmpty_iff, hps, if_false,
    List.getElem?_eq_getElem hlt]

theorem pickProduction_of_nil (h : g.productions s = []) :
    g.pickProduction s words = (none, words) := by
  simp [pickProduction, h]

/-- What is generated at random is generated, or has a slot without productions in it that stayed. -/
theorem generates_or_stays (h : AreWords words) :
    (g.Generates depth s (g.generateRandomly depth s words).1 ∨
      g.Stays depth s (g.generateRandomly depth s words).1) ∧
      AreWords (g.generateRandomly depth s words).2 := by
  induction depth generalizing s words with
  | zero => exact ⟨.inl rfl, h⟩
  | succ depth ih =>
    unfold generateRandomly
    cases hrule : g.rules.get? s with
    | none =>
      rw [pickProduction_of_nil (by rw [productions, hrule]; rfl)]
      exact ⟨.inl ((generates_of_no_rule hrule).2 rfl), h⟩
    | some ps =>
      by_cases hps : ps = []
      · subst hps
        rw [pickProduction_of_nil (by rw [productions, hrule]; rfl)]
        exact ⟨.inr (stays_ofSlot hrule), h⟩
      · obtain ⟨p, hp, rest, hpick, hrest⟩ := pickProduction_spec hrule hps h
        rw [hpick]
        have hstep : ∀ k ∈ p.slots, ∀ words, AreWords words →
            (g.Generates depth k (g.generateRandomly depth k words).1 ∨
              g.Stays depth k (g.generateRandomly depth k words).1) ∧
              AreWords (g.generateRandomly depth k words).2 := fun k _ words hwords => ih hwords
        obtain ⟨hvalues, hleft⟩ := mapWords_spec
          (R := fun k t => g.Generates depth k t ∨ g.Stays depth k t) hstep hrest
        refine ⟨?_, hleft⟩
        rcases (filledFrom_fillTokens hvalues).forall_or_exists with hall | ⟨k, v, hk, hv, hsub⟩
        · exact .inl ((generates_of_rule hrule).2 ⟨p, hp, hall⟩)
        · exact .inr (hv.of_value hrule hp (Template.mem_slots_iff.2 hk) hsub)

theorem generateRandomly?_eq_ok (hs : g.isDefined s = true) :
    g.generateRandomly? s depth words = .ok (g.generateRandomly depth s words) := by
  rw [generateRandomly?, productions?_eq_ok hs]
  rfl

/-- **Random generation stays in the language**, but for slots without productions: whatever words are
drawn, a template is generated, and it is one of those that are listed, unless a slot that is defined
without productions has stayed in it. -/
theorem random_generation_within (depth : Nat) (hs : g.isDefined s = true) (h : AreWords words) :
    ∃ t rest all, g.generateRandomly? s depth words = .ok (t, rest) ∧
      g.generateAll? s depth = .ok all ∧ (all.contains t = true ∨ g.Stays depth s t) := by
  refine ⟨_, _, _, generateRandomly?_eq_ok hs, generateAll?_eq_ok hs, ?_⟩
  refine (generates_or_stays h).1.imp_left fun hgenerates => ?_
  exact contains_generateAll_iff.2 ⟨_, hgenerates, BEq.rfl⟩

theorem random_generation_within_nested :
    nested.isDefined origin = true ∧ AreWords [0, 4294967295, 7, 2147483648] ∧
      ∃ t rest all, nested.generateRandomly? origin 3 [0, 4294967295, 7, 2147483648] = .ok (t, rest) ∧
        nested.generateAll? origin 3 = .ok all ∧
          (all.contains t = true ∨ nested.Stays 3 origin t) :=
  ⟨by decide, by decide, random_generation_within 3 (by decide) (by decide)⟩

/-- Words said to someone whose name cannot be written. -/
def farewells : Grammar where
  start := origin
  rules := (OrderedMap.empty.insert origin
      [⟨[.literal "hello", .slot (.named "name")]⟩, ⟨[.literal "bye"]⟩]).insert (.named "name") []

/-- Where a slot has no productions, a template may be generated at random that is not listed: `hello`
to the name, whereas `bye` alone is listed. -/
theorem random_generation_strays : ¬ ∀ (g : Grammar) (s : Slot) (depth : Nat) (words : List Nat),
    g.isDefined s = true → AreWords words → ∃ t rest all,
      g.generateRandomly? s depth words = .ok (t, rest) ∧ g.generateAll? s depth = .ok all ∧
        all.contains t = true := by
  intro h
  obtain ⟨t, rest, all, hrandom, hall, hmem⟩ := h farewells origin 2 [0] (by decide) (by decide)
  have hdrawn : farewells.generateRandomly? origin 2 [0] =
      .ok (⟨[.literal "hello", .slot (.named "name")]⟩, []) := by decide +kernel
  have hlisted : (farewells.generateAll 2 origin).contains
      ⟨[.literal "hello", .slot (.named "name")]⟩ = false := by decide +kernel
  obtain ⟨rfl, -⟩ := Prod.mk.inj (Except.ok.inj (hdrawn.symm.trans hrandom))
  rw [generateAll?_eq_ok (by decide)] at hall
  rw [← Except.ok.inj hall, hlisted] at hmem
  cases hmem

end Grammar

end GrammarInduction
