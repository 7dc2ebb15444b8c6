import GrammarInduction.Grammar.Generation
import GrammarInduction.Proofs.Template.Slots

/-!
# What is generated

`Generates g depth s t` says that the template `t` is what is left when the slot `s` is expanded
through so many levels, each occurrence of a slot through a production of its own. All templates that
are generated are listed, up to the numbers of anonymous slots (`contains_generateAll_iff`), and
without anonymous slots exactly these (`mem_generateAll_iff`).
-/

namespace GrammarInduction

variable {values A B : Slot → Template → Prop} {x y : List Token} {p t : Template} {s : Slot}

/-! ## Filling each occurrence of a slot -/

/-- Tokens with one of its values in place of each occurrence of a slot. -/
inductive FilledFrom (values : Slot → Template → Prop) : List Token → List Token → Prop
  | nil : FilledFrom values [] []
  | literal (text : String) {x y : List Token} :
      FilledFrom values x y → FilledFrom values (.literal text :: x) (.literal text :: y)
  | slot {s : Slot} {t : Template} {x y : List Token} (ht : values s t) :
      FilledFrom values x y → FilledFrom values (.slot s :: x) (t.tokens ++ y)

theorem filledFrom_nil_iff : FilledFrom values [] y ↔ y = [] := by
  constructor
  · rintro ⟨⟩
    rfl
  · rintro rfl
    exact .nil

theorem filledFrom_literal_cons_iff {text : String} :
    FilledFrom values (.literal text :: x) y ↔
      ∃ y', y = .literal text :: y' ∧ FilledFrom values x y' := by
  constructor
  · rintro (_ | ⟨_, h⟩)
    exact ⟨_, rfl, h⟩
  · rintro ⟨y', rfl, h⟩
    exact .literal text h

theorem filledFrom_slot_cons_iff :
    FilledFrom values (.slot s :: x) y ↔
      ∃ t, values s t ∧ ∃ y', y = t.tokens ++ y' ∧ FilledFrom values x y' := by
  constructor
  · rintro (_ | _ | ⟨ht, h⟩)
    exact ⟨_, ht, _, rfl, h⟩
  · rintro ⟨t, ht, y', rfl, h⟩
    exact .slot ht h

theorem FilledFrom.mono (h : FilledFrom A x y) (hAB : ∀ s t, A s t → B s t) : FilledFrom B x y := by
  induction h with
  | nil => exact .nil
  | literal text _ ih => exact .literal text ih
  | slot ht _ ih => exact .slot (hAB _ _ ht) ih

/-- Equal values give equal templates. -/
theorem FilledFrom.exists_beq (h : FilledFrom A x y)
    (hAB : ∀ s t, A s t → ∃ t', B s t' ∧ (t' == t) = true) :
    ∃ y', FilledFrom B x y' ∧ ((⟨y'⟩ : Template) == ⟨y⟩) = true := by
  simp only [Template.beq_iff, Template.form] at hAB ⊢
  induction h with
  | nil => exact ⟨[], .nil, rfl⟩
  | literal text _ ih =>
    obtain ⟨y', hy', heq⟩ := ih
    exact ⟨_, .literal text hy', by rw [List.map_cons, List.map_cons, heq]⟩
  | slot ht _ ih =>
    obtain ⟨y', hy', heq⟩ := ih
    obtain ⟨t', ht', heq'⟩ := hAB _ _ ht
    exact ⟨_, .slot ht' hy', by rw [List.map_append, List.map_append, heq, heq']⟩

theorem FilledFrom.over {P : Slot → Prop} (h : FilledFrom values x y)
    (hvalues : ∀ s, .slot s ∈ x → ∀ t, values s t → t.Over P) : (⟨y⟩ : Template).Over P := by
  simp only [Template.Over, Template.mem_slots_iff] at hvalues ⊢
  induction h with
  | nil =>
    intro k hk
    cases hk
  | literal text _ ih =>
    intro k hk
    rcases List.mem_cons.1 hk with heq | hk
    · cases heq
    · exact ih (fun s hs => hvalues s (.tail _ hs)) k hk
  | slot ht _ ih =>
    intro k hk
    rcases List.mem_append.1 hk with hk | hk
    · exact hvalues _ List.mem_cons_self _ ht k hk
    · exact ih (fun s hs => hvalues s (.tail _ hs)) k hk

namespace Grammar

variable {g : Grammar} {depth : Nat}

theorem mem_fillEach_iff {sets : Slot → OrderedSet Template} :
    t ∈ fillEach sets p ↔ FilledFrom (fun s t => t ∈ (sets s).toList) p.tokens t.tokens := by
  obtain ⟨tokens⟩ := p
  obtain ⟨filled⟩ := t
  simp only [fillEach, Template.slots, List.mem_map, Template.mk.injEq]
  induction tokens generalizing filled with
  | nil => simp [SlotValues.choices, Template.fillTokens, filledFrom_nil_iff, eq_comm]
  | cons k tokens ih =>
    cases k with
    | literal text =>
      rw [filledFrom_literal_cons_iff]
      simp only [← ih]
      constructor
      · rintro ⟨tuple, htuple, rfl⟩
        exact ⟨_, rfl, tuple, htuple, rfl⟩
      · rintro ⟨_, rfl, tuple, htuple, rfl⟩
        exact ⟨tuple, htuple, rfl⟩
    | slot s =>
      rw [filledFrom_slot_cons_iff]
      simp only [← ih]
      constructor
      · rintro ⟨tuple, htuple, rfl⟩
        obtain ⟨value, hvalue, hcons⟩ := List.mem_flatMap.1 htuple
        obtain ⟨rest, hrest, rfl⟩ := List.mem_map.1 hcons
        exact ⟨value, hvalue, _, rfl, rest, hrest, rfl⟩
      · rintro ⟨value, hvalue, _, rfl, tuple, htuple, rfl⟩
        exact ⟨value :: tuple, List.mem_flatMap.2 ⟨value, hvalue, List.mem_map_of_mem htuple⟩, rfl⟩

/-! ## Generated templates -/

/-- A slot gives a template on so many levels: itself if no level is left or it is not defined, and
otherwise a production with each occurrence of a slot filled on one level less. -/
def Generates (g : Grammar) : Nat → Slot → Template → Prop
  | 0, s, t => t = .ofSlot s
  | depth + 1, s, t =>
    match g.rules.get? s with
    | some ps => ∃ p ∈ ps, FilledFrom (g.Generates depth) p.tokens t.tokens
    | none => t = .ofSlot s

theorem generates_of_no_rule (hs : g.rules.get? s = none) :
    g.Generates (depth + 1) s t ↔ t = .ofSlot s := by
  rw [Generates, hs]

theorem generates_of_rule {ps : List Template} (hs : g.rules.get? s = some ps) :
    g.Generates (depth + 1) s t ↔ ∃ p ∈ ps, FilledFrom (g.Generates depth) p.tokens t.tokens := by
  rw [Generates, hs]

theorem generateAll?_eq_ok (hs : g.isDefined s = true) :
    g.generateAll? s depth = .ok (g.generateAll depth s) := by
  rw [generateAll?, productions?_eq_ok hs]
  rfl

theorem contains_bare_iff :
    ((OrderedSet.empty : OrderedSet Template).insert (.ofSlot s)).contains t = true ↔
      ∃ t', t' = .ofSlot s ∧ (t' == t) = true := by
  rw [OrderedSet.contains_insert]
  simp

/-- **All templates that are generated are listed, and nothing else**, up to the numbers of anonymous
slots. -/
theorem contains_generateAll_iff : (g.generateAll depth s).contains t = true ↔
    ∃ t', g.Generates depth s t' ∧ (t' == t) = true := by
  rw [generateAll, expansion_eq _ _ _ isLocal_fillAllEach]
  induction depth generalizing s t with
  | zero => exact contains_bare_iff
  | succ depth ih =>
    rw [expand]
    cases hrule : g.rules.get? s with
    | none =>
      simp only [generates_of_no_rule hrule]
      exact contains_bare_iff
    | some ps =>
      simp only [generates_of_rule hrule]
      rw [fillAllEach, OrderedSet.contains_ofList, List.any_eq_true]
      simp only [List.mem_flatMap, mem_fillEach_iff]
      constructor
      · rintro ⟨u, ⟨p, hp, hu⟩, heq⟩
        obtain ⟨y, hy, heq'⟩ := hu.exists_beq fun s t ht => ih.1 (OrderedSet.contains_of_mem ht)
        exact ⟨⟨y⟩, ⟨p, hp, hy⟩, BEq.trans heq' heq⟩
      · rintro ⟨u, ⟨p, hp, hu⟩, heq⟩
        obtain ⟨y, hy, heq'⟩ := hu.exists_beq fun s t ht =>
          OrderedSet.contains_iff.1 (ih.2 ⟨t, ht, BEq.rfl⟩)
        exact ⟨⟨y⟩, ⟨p, hp, hy⟩, BEq.trans heq' heq⟩

/-! ## Slots in generated templates -/

/-- The start and all slots in productions have a property. -/
structure Over (P : Slot → Prop) (g : Grammar) : Prop where
  start : P g.start
  rules : ∀ s ps, g.rules.get? s = some ps → ∀ p ∈ ps, p.Over P

theorem over_of_entries {P : Slot → Prop}
    (h : P g.start ∧ ∀ e ∈ g.rules.entries, ∀ p ∈ e.2, ∀ s ∈ p.slots, P s) : g.Over P :=
  ⟨h.1, fun s ps hrule => h.2 (s, ps) (OrderedMap.get?_eq_some_iff.1 hrule)⟩

theorem Generates.over {P : Slot → Prop} (hg : g.Over P) (hs : P s) (h : g.Generates depth s t) :
    t.Over P := by
  induction depth generalizing s t with
  | zero => exact h ▸ Template.over_ofSlot_iff.2 hs
  | succ depth ih =>
    cases hrule : g.rules.get? s with
    | none => exact (generates_of_no_rule hrule).1 h ▸ Template.over_ofSlot_iff.2 hs
    | some ps =>
      obtain ⟨p, hp, h⟩ := (generates_of_rule hrule).1 h
      refine h.over fun k hk t ht => ih (hg.rules s ps hrule p hp k ?_) ht
      exact Template.mem_slots_iff.2 hk

/-- Without anonymous slots exactly the templates that are generated are listed. -/
theorem mem_generateAll_iff (hg : g.Over (·.isNamed = true)) (hs : s.isNamed = true) :
    t ∈ (g.generateAll depth s).toList ↔ g.Generates depth s t := by
  have heq {t t' : Template} (h : g.Generates depth s t) (hbeq : (t == t') = true) : t = t' :=
    Template.eq_of_beq_of_named hbeq (h.over hg hs) ((h.over hg hs).congr Slot.formal_isNamed hbeq)
  constructor
  · intro ht
    obtain ⟨t', h, hbeq⟩ := contains_generateAll_iff.1 (OrderedSet.contains_of_mem ht)
    exact heq h hbeq ▸ h
  · intro h
    have hcontains := contains_generateAll_iff.2 ⟨t, h, BEq.rfl⟩
    obtain ⟨t', ht', hbeq⟩ := OrderedSet.contains_iff.1 hcontains
    exact heq h (BEq.symm hbeq) ▸ ht'

end Grammar

end GrammarInduction
