import GrammarInduction.Proofs.Template.Generality
import Mathlib.Data.List.Destutter

/-!
# The kernel of covering

Covering is a preorder, but not an order: a run of slots side by side takes in just what one slot takes
in. `Template.squeezed` leaves one slot of each run, and this is all that covering does not tell apart
(`covers_both_iff`): two templates cover each other exactly if, squeezed, they have the same shape.

* `covers_destutter`: tokens and their squeezed form cover each other.
* `IsChain.destutter` of the library makes squeezed tokens spaced, so that what is known of covering
  between spaced tokens (`Covers.slots_le`) tells their shapes.
-/

namespace GrammarInduction

instance : DecidableRel Token.Apart := fun s t =>
  inferInstanceAs (Decidable (s.isSlot = false ∨ t.isSlot = false))

namespace Cover

variable {main other tokens : List Token}

theorem Covers.cons (t : Token) (h : Covers main other) : Covers (t :: main) (t :: other) := by
  cases t with
  | literal text => exact .literal text h
  | slot s => exact .take s _ (.skip s h)

/-- Of two slots side by side the second makes no difference. -/
theorem covers_second_slot {s t : Token} (h : ¬ s.Apart t) (tokens : List Token) :
    Covers (s :: t :: tokens) (s :: tokens) ∧ Covers (s :: tokens) (s :: t :: tokens) := by
  cases s with
  | literal text => exact absurd (.inl rfl) h
  | slot s =>
    cases t with
    | literal text => exact absurd (.inr rfl) h
    | slot s' =>
      have hrest := Covers.refl tokens
      exact ⟨.take s _ (.skip s (.skip s' hrest)), .take s _ (.take s _ (.skip s hrest))⟩

theorem covers_destutter' (t : Token) (tokens : List Token) :
    Covers (t :: tokens) (tokens.destutter' Token.Apart t) ∧
      Covers (tokens.destutter' Token.Apart t) (t :: tokens) := by
  induction tokens generalizing t with
  | nil => exact ⟨.refl _, .refl _⟩
  | cons u tokens ih =>
    by_cases h : t.Apart u
    · rw [List.destutter'_cons_pos _ h]
      exact ⟨(ih u).1.cons t, (ih u).2.cons t⟩
    · rw [List.destutter'_cons_neg _ h]
      obtain ⟨hdrop, hput⟩ := covers_second_slot h tokens
      exact ⟨hdrop.trans (ih t).1, (ih t).2.trans hput⟩

/-- **Tokens with runs of slots and those with one slot of each run cover each other.** -/
theorem covers_destutter (tokens : List Token) :
    Covers tokens (tokens.destutter Token.Apart) ∧
      Covers (tokens.destutter Token.Apart) tokens := by
  cases tokens with
  | nil => exact ⟨.nil, .nil⟩
  | cons t tokens => exact covers_destutter' t tokens

theorem spaced_destutter (tokens : List Token) : Spaced (tokens.destutter Token.Apart) :=
  List.isChain_destutter _ _

/-- Spaced tokens that cover each other have the same shape. -/
theorem Covers.shape_eq (h : Covers main other) (h' : Covers other main) (hm : Spaced main)
    (ho : Spaced other) : main.map Token.literal? = other.map Token.literal? := by
  have hslots := h.slots_le hm ho h'.literals_sublist.length_le
  have hslots' := h'.slots_le ho hm h.literals_sublist.length_le
  exact hslots.2 hslots'.1

end Cover

open Cover

namespace Template

variable {a b : Template}

/-- The template with one slot for each run of slots side by side. -/
def squeezed (t : Template) : Template := ⟨t.tokens.destutter Token.Apart⟩

theorem covers_squeezed (t : Template) :
    t.covers t.squeezed = true ∧ t.squeezed.covers t = true :=
  ⟨covers_iff.2 (covers_destutter t.tokens).1, covers_iff.2 (covers_destutter t.tokens).2⟩

/-- **What covering does not tell apart**: how many slots stand side by side, and which. -/
theorem covers_both_iff :
    (a.covers b = true ∧ b.covers a = true) ↔ a.squeezed.shape = b.squeezed.shape := by
  constructor
  · rintro ⟨hab, hba⟩
    have between {a b : Template} (h : a.covers b = true) : a.squeezed.covers b.squeezed = true :=
      covers_trans (covers_squeezed a).2 (covers_trans h (covers_squeezed b).1)
    exact (covers_iff.1 (between hab)).shape_eq (covers_iff.1 (between hba))
      (spaced_destutter _) (spaced_destutter _)
  · intro hshape
    have through {a b : Template} (h : a.squeezed.shape = b.squeezed.shape) : a.covers b = true := by
      have hsame : a.squeezed.covers b.squeezed = true :=
        covers_congr rfl h ▸ covers_refl a.squeezed
      exact covers_trans (covers_squeezed a).1 (covers_trans hsame (covers_squeezed b).2)
    exact ⟨through hshape, through hshape.symm⟩

/-- **Covering is a preorder, and its kernel is equality up to runs of slots.** -/
theorem covers_preorder (a b c : Template) :
    a.covers a = true ∧
    (a.covers b = true → b.covers c = true → a.covers c = true) ∧
    ((a.covers b = true ∧ b.covers a = true) ↔ a.squeezed.shape = b.squeezed.shape) :=
  ⟨covers_refl a, covers_trans, covers_both_iff⟩

/-- Two slots side by side and a word. -/
def slotsAndWord : Template := ⟨[.slot (.named "x"), .slot (.anonymous 0), .literal "a"]⟩

/-- One slot and a word. -/
def slotAndWord : Template := ⟨[.slot (.anonymous 1), .literal "a"]⟩

theorem covers_preorder_of_runs :
    slotsAndWord.covers slotAndWord = true ∧ slotAndWord.covers slotsAndWord = true ∧
    slotAndWord.covers (ofWords ["a"]) = true ∧ slotsAndWord.covers (ofWords ["a"]) = true ∧
    slotsAndWord.squeezed.shape = slotAndWord.squeezed.shape := by
  have hone : slotsAndWord.covers slotAndWord = true := by decide
  have hback : slotAndWord.covers slotsAndWord = true := by decide
  have hword : slotAndWord.covers (ofWords ["a"]) = true := by decide
  obtain ⟨-, htrans, hkernel⟩ := covers_preorder slotsAndWord slotAndWord (ofWords ["a"])
  exact ⟨hone, hback, hword, htrans hone hword, hkernel.1 ⟨hone, hback⟩⟩

end Template

end GrammarInduction
