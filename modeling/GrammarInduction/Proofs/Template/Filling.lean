import GrammarInduction.Proofs.Grammar.Derivation
import GrammarInduction.Proofs.Template.Extraction

/-!
# Fillings as derivations

A filling of a template that gives another one is a derivation: each occurrence of a slot is
replaced by its value (`derives_of_filling`). Its values are made of tokens of the template that it
gives (`over_of_mem_fillings`).
-/

namespace GrammarInduction.Template

variable {main other : Template} {filling : List Template} {f : Slot → List Template}

theorem fills_of_mem_fillings (h : filling ∈ main.fillings other) :
    Fills main.tokens filling other.tokens := fillWith_eq_ok_iff.1 (mem_fillings_iff.1 h)

/-- A filling has a value for each occurrence of a slot. -/
theorem length_of_mem_fillings (h : filling ∈ main.fillings other) :
    filling.length = main.slots.length :=
  (fills_of_mem_fillings h).1.symm

theorem Fills.derives {main other : List Token} (h : Fills main filling other)
    (hf : ∀ p ∈ (main.filterMap Token.slot?).zip filling, Derives f [.slot p.1] p.2.tokens) :
    Derives f main other := by
  induction main generalizing filling other with
  | nil =>
    obtain ⟨-, rfl⟩ := fills_nil_iff.1 h
    exact .refl f []
  | cons k main ih =>
    cases k with
    | literal text =>
      obtain ⟨back, rfl, hback⟩ := fills_literal_iff.1 h
      exact (Derives.refl f [.literal text]).append (ih hback hf)
    | slot s =>
      obtain ⟨value, values, back, rfl, rfl, hback⟩ := fills_slot_iff.1 h
      have hfirst := hf (s, value) List.mem_cons_self
      exact Derives.append (x := [.slot s]) hfirst (ih hback fun p hp => hf p (.tail _ hp))

/-- **A filling is a derivation** where each value is derived from its slot. -/
theorem derives_of_filling (h : filling ∈ main.fillings other)
    (hf : ∀ p ∈ main.slots.zip filling, Derives f [.slot p.1] p.2.tokens) :
    Derives f main.tokens other.tokens :=
  (fills_of_mem_fillings h).derives hf

/-- Values are made of tokens of what they give. -/
theorem Fills.subset {main other : List Token} (h : Fills main filling other) {value : Template}
    (hvalue : value ∈ filling) : value.tokens ⊆ other := by
  induction main generalizing filling other with
  | nil =>
    obtain ⟨rfl, -⟩ := fills_nil_iff.1 h
    cases hvalue
  | cons k main ih =>
    cases k with
    | literal text =>
      obtain ⟨back, rfl, hback⟩ := fills_literal_iff.1 h
      exact List.subset_cons_of_subset _ (ih hback hvalue)
    | slot s =>
      obtain ⟨first, values, back, rfl, rfl, hback⟩ := fills_slot_iff.1 h
      rcases List.mem_cons.1 hvalue with rfl | hvalue
      · exact List.subset_append_left _ _
      · exact List.subset_append_of_subset_right _ (ih hback hvalue)

/-- The values of a filling have no slots but those of the template that it gives. -/
theorem over_of_mem_fillings {P : Slot → Prop} (h : filling ∈ main.fillings other)
    (hother : ∀ s ∈ other.slots, P s) {value : Template} (hvalue : value ∈ filling) :
    ∀ s ∈ value.slots, P s := by
  intro s hs
  obtain ⟨k, hk, hks⟩ := List.mem_filterMap.1 hs
  exact hother s (List.mem_filterMap.2 ⟨k, (fills_of_mem_fillings h).subset hvalue hk, hks⟩)

end GrammarInduction.Template
