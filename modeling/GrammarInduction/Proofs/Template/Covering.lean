import GrammarInduction.Template.Cover
import Mathlib.Data.List.Chain

/-!
# Covering as a relation

`Covers main other` says by rules what the table of `Cover.coverRow` computes
(`coversTokens_iff`): a literal is matched by an equal literal, and a slot is left out or takes in
one token more.

* `Covers.refl` and `Covers.trans`: covering is a preorder.
* `covers_congr`: it depends on the shapes of the two templates alone.
* `Covers.literals_sublist`: literals are only lost on the way up.
-/

namespace GrammarInduction

namespace Cover

/-- Some filling of the slots of `main` gives `other`. -/
inductive Covers : List Token → List Token → Prop
  | nil : Covers [] []
  | literal (text : String) {main other : List Token} :
      Covers main other → Covers (.literal text :: main) (.literal text :: other)
  | skip (s : Slot) {main other : List Token} : Covers main other → Covers (.slot s :: main) other
  | take (s : Slot) (t : Token) {main other : List Token} :
      Covers (.slot s :: main) other → Covers (.slot s :: main) (t :: other)

variable {main other rest : List Token} {text : String} {s : Slot}

/-! ## Inversion -/

theorem covers_nil_iff : Covers [] other ↔ other = [] := by
  refine ⟨fun h => ?_, ?_⟩
  · cases h
    rfl
  · rintro rfl
    exact .nil

theorem covers_literal_iff :
    Covers (.literal text :: main) other ↔
      ∃ back, other = .literal text :: back ∧ Covers main back := by
  refine ⟨fun h => ?_, ?_⟩
  · cases h with
    | literal _ h => exact ⟨_, rfl, h⟩
  · rintro ⟨back, rfl, h⟩
    exact .literal text h

/-- A slot in front takes in any tokens. -/
theorem Covers.prepend (h : Covers (.slot s :: main) other) (front : List Token) :
    Covers (.slot s :: main) (front ++ other) := by
  induction front with
  | nil => exact h
  | cons t front ih => exact .take s t ih

theorem covers_slot_iff :
    Covers (.slot s :: main) other ↔ ∃ front back, other = front ++ back ∧ Covers main back := by
  refine ⟨fun h => ?_, ?_⟩
  · generalize hm : Token.slot s :: main = slotted at h
    induction h with
    | nil => simp at hm
    | literal => simp at hm
    | @skip _ _ other h _ =>
      obtain ⟨-, rfl⟩ := List.cons.inj hm
      exact ⟨[], other, rfl, h⟩
    | take _ t _ ih =>
      obtain ⟨front, back, rfl, h⟩ := ih hm
      exact ⟨t :: front, back, rfl, h⟩
  · rintro ⟨front, back, rfl, h⟩
    exact (Covers.skip s h).prepend front

/-- The table computes the relation. -/
theorem coversTokens_iff : coversTokens main other = true ↔ Covers main other := by
  induction main generalizing other with
  | nil => simp [coversTokens_nil, covers_nil_iff]
  | cons token main ih =>
    cases token with
    | literal text =>
      cases other with
      | nil => simp [coversTokens_literal_nil, covers_literal_iff]
      | cons t other =>
        rw [coversTokens_literal, Bool.and_eq_true, decide_eq_true_eq, ih, covers_literal_iff]
        simp
    | slot s =>
      induction other with
      | nil =>
        rw [coversTokens_slot_nil, ih, covers_slot_iff]
        simp
      | cons t other iho =>
        rw [coversTokens_slot_cons, Bool.or_eq_true, ih, iho]
        refine ⟨?_, fun h => ?_⟩
        · rintro (h | h)
          · exact .skip s h
          · exact .take s t h
        · cases h with
          | skip _ h => exact .inl h
          | take _ _ h => exact .inr h

/-! ## The preorder -/

theorem Covers.refl (main : List Token) : Covers main main := by
  induction main with
  | nil => exact .nil
  | cons token main ih =>
    cases token with
    | literal text => exact .literal text ih
    | slot s => exact .take s _ (.skip s ih)

theorem Covers.trans (h : Covers main other) (h' : Covers other rest) : Covers main rest := by
  induction h generalizing rest with
  | nil => exact h'
  | literal text _ ih =>
    obtain ⟨back, rfl, hback⟩ := covers_literal_iff.1 h'
    exact .literal text (ih hback)
  | skip s _ ih => exact .skip s (ih h')
  | take s t _ ih =>
    -- whatever the token `t` is filled with goes into the slot
    cases t with
    | literal text =>
      obtain ⟨back, rfl, hback⟩ := covers_literal_iff.1 h'
      exact .take s _ (ih hback)
    | slot s' =>
      obtain ⟨front, back, rfl, hback⟩ := covers_slot_iff.1 h'
      exact (ih hback).prepend front

/-! ## Shapes and literals -/

/-- Covering asks only where the slots stand. -/
theorem Covers.of_shape {main' other' : List Token} (h : Covers main other)
    (hm : main.map Token.literal? = main'.map Token.literal?)
    (ho : other.map Token.literal? = other'.map Token.literal?) : Covers main' other' := by
  induction h generalizing main' other' with
  | nil =>
    obtain rfl : main' = [] := by simpa using hm.symm
    obtain rfl : other' = [] := by simpa using ho.symm
    exact .nil
  | literal text _ ih =>
    obtain ⟨t, main', rfl, ht, hm'⟩ := List.map_eq_cons_iff.1 hm.symm
    obtain ⟨u, other', rfl, hu, ho'⟩ := List.map_eq_cons_iff.1 ho.symm
    obtain rfl : t = .literal text := by cases t <;> simp_all [Token.literal?]
    obtain rfl : u = .literal text := by cases u <;> simp_all [Token.literal?]
    exact .literal text (ih hm'.symm ho'.symm)
  | skip s _ ih =>
    obtain ⟨t, main', rfl, ht, hm'⟩ := List.map_eq_cons_iff.1 hm.symm
    obtain ⟨s', rfl⟩ : ∃ s', t = .slot s' := by cases t <;> simp_all [Token.literal?]
    exact .skip s' (ih hm'.symm ho)
  | take s _ _ ih =>
    obtain ⟨t, main', rfl, ht, hm'⟩ := List.map_eq_cons_iff.1 hm.symm
    obtain ⟨s', rfl⟩ : ∃ s', t = .slot s' := by cases t <;> simp_all [Token.literal?]
    obtain ⟨u, other', rfl, -, ho'⟩ := List.map_eq_cons_iff.1 ho.symm
    exact .take s' u (ih hm ho'.symm)

theorem Covers.literals_sublist (h : Covers main other) :
    (main.filterMap Token.literal?).Sublist (other.filterMap Token.literal?) := by
  induction h with
  | nil => exact .slnil
  | literal text _ ih => exact ih.cons_cons text
  | skip s _ ih => exact ih
  | take s t _ ih =>
    cases t with
    | literal text => exact ih.cons text
    | slot s' => exact ih

/-- What has no slots covers nothing but itself. -/
theorem Covers.eq_of_forall_literal (h : Covers main other) (hm : ∀ t ∈ main, t.isSlot = false) :
    other = main := by
  induction h with
  | nil => rfl
  | literal text _ ih => rw [ih fun t ht => hm t (.tail _ ht)]
  | skip s => simpa [Token.isSlot] using hm _ List.mem_cons_self
  | take s => simpa [Token.isSlot] using hm _ List.mem_cons_self

end Cover

open Cover

namespace Template

variable {a b c : Template}

/-- The template of literal texts alone. -/
def ofWords (words : List String) : Template := ⟨words.map .literal⟩

theorem covers_iff : a.covers b = true ↔ Covers a.tokens b.tokens := coversTokens_iff

theorem covers_refl (a : Template) : a.covers a = true := covers_iff.2 (.refl _)

theorem covers_trans (hab : a.covers b = true) (hbc : b.covers c = true) : a.covers c = true :=
  covers_iff.2 ((covers_iff.1 hab).trans (covers_iff.1 hbc))

theorem covers_congr {a' b' : Template} (ha : a.shape = a'.shape) (hb : b.shape = b'.shape) :
    a.covers b = a'.covers b' := by
  rw [Bool.eq_iff_iff, covers_iff, covers_iff]
  exact ⟨fun h => h.of_shape ha hb, fun h => h.of_shape ha.symm hb.symm⟩

/-- Equal templates cover the same. -/
theorem covers_congr_beq {a' b' : Template} (ha : (a == a') = true) (hb : (b == b') = true) :
    a.covers b = a'.covers b' :=
  covers_congr (shape_eq_of_beq ha) (shape_eq_of_beq hb)

theorem literals_sublist_of_covers (h : a.covers b = true) : a.literals.Sublist b.literals :=
  (covers_iff.1 h).literals_sublist

theorem hasSlots_eq_false_iff : a.hasSlots = false ↔ ∀ t ∈ a.tokens, t.isSlot = false := by
  simp [hasSlots]

theorem eq_of_covers_of_not_hasSlots (h : a.covers b = true) (ha : a.hasSlots = false) : b = a := by
  obtain ⟨as⟩ := a
  obtain ⟨bs⟩ := b
  have heq : bs = as := (covers_iff.1 h).eq_of_forall_literal (hasSlots_eq_false_iff.1 ha)
  rw [heq]

end Template

end GrammarInduction
