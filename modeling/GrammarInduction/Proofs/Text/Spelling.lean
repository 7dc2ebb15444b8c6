import Mathlib.Data.List.Basic

/-!
# What is found at places of a text

`at?` finds something at the front of a text, a slot or a modifier, say. It goes by *spellings* if it
finds what it finds because of the characters that the text begins with, whatever follows them
(`GoesBy`). Then nothing is found in a part of a text that is not found in the text
(`GoesBy.lacks_part`), and what is found at a place before `rest` and not without `rest` has a spelling that
takes characters of `rest` (`GoesBy.cases_append`).
-/

namespace GrammarInduction.Text

variable {α : Type} {at? : List Char → Option α} {Spells : List Char → Prop}

/-- Whatever is found, is found by a spelling at the front, with any text behind it. -/
def GoesBy (at? : List Char → Option α) (Spells : List Char → Prop) : Prop :=
  ∀ text found, at? text = some found →
    ∃ spelling, Spells spelling ∧ spelling <+: text ∧ ∀ rest, at? (spelling ++ rest) = some found

/-- Nothing is found at a place in `cs` when `rest` comes after. -/
def Clear (at? : List Char → Option α) (cs rest : List Char) : Prop :=
  ∀ s, s ≠ [] → s <:+ cs → at? (s ++ rest) = none

/-- Nothing is found at a place in `cs`. -/
def Lacks (at? : List Char → Option α) (cs : List Char) : Prop := Clear at? cs []

/-! ## Places in a text, one after the other -/

theorem clear_nil (rest : List Char) : Clear at? [] rest := fun _ hne hs =>
  absurd (List.suffix_nil.1 hs) hne

theorem clear_cons_iff {c : Char} {cs rest : List Char} :
    Clear at? (c :: cs) rest ↔ at? (c :: (cs ++ rest)) = none ∧ Clear at? cs rest := by
  refine ⟨fun h => ⟨?_, fun s hne hs => h s hne (hs.trans (List.suffix_cons c cs))⟩, ?_⟩
  · exact h (c :: cs) (List.cons_ne_nil c cs) List.suffix_rfl
  · rintro ⟨hc, hcs⟩ s hne hs
    obtain rfl | hs := List.suffix_cons_iff.1 hs
    · exact hc
    · exact hcs s hne hs

theorem clear_append_iff {cs cs' rest : List Char} :
    Clear at? (cs ++ cs') rest ↔ Clear at? cs (cs' ++ rest) ∧ Clear at? cs' rest := by
  induction cs with
  | nil => simp [clear_nil]
  | cons c cs ih => rw [List.cons_append, clear_cons_iff, clear_cons_iff, ih, List.append_assoc, and_assoc]

theorem Clear.concat {cs rest : List Char} {c : Char} (h : Clear at? cs (c :: rest))
    (hc : at? (c :: rest) = none) : Clear at? (cs ++ [c]) rest :=
  clear_append_iff.2 ⟨h, clear_cons_iff.2 ⟨hc, clear_nil rest⟩⟩

/-- Nothing is found among characters at which nothing begins. -/
theorem clear_of_forall {cs : List Char} (h : ∀ c ∈ cs, ∀ rest, at? (c :: rest) = none)
    (rest : List Char) : Clear at? cs rest := by
  intro s hne hs
  obtain ⟨c, s, rfl⟩ := List.exists_cons_of_ne_nil hne
  exact h c (hs.subset List.mem_cons_self) (s ++ rest)

namespace GoesBy

/-! ## Parts of a text -/

theorem append_of_eq_some (h : GoesBy at? Spells) {text : List Char} {found : α}
    (hfound : at? text = some found) (rest : List Char) : at? (text ++ rest) = some found := by
  obtain ⟨spelling, -, ⟨after, rfl⟩, hspelling⟩ := h text found hfound
  rw [List.append_assoc]
  exact hspelling (after ++ rest)

theorem eq_none_of_append (h : GoesBy at? Spells) {text rest : List Char}
    (hnone : at? (text ++ rest) = none) : at? text = none := by
  by_contra hfound
  obtain ⟨found, hfound⟩ := Option.ne_none_iff_exists'.1 hfound
  rw [h.append_of_eq_some hfound rest] at hnone
  cases hnone

theorem lacks_of_clear (h : GoesBy at? Spells) {cs rest : List Char} (hclear : Clear at? cs rest) :
    Lacks at? cs := by
  intro s hne hs
  rw [List.append_nil]
  exact h.eq_none_of_append (hclear s hne hs)

/-- In a part of a text nothing is found that is not found in the text. -/
theorem lacks_part (h : GoesBy at? Spells) {cs part : List Char} (hcs : Lacks at? cs)
    (hpart : part <:+: cs) : Lacks at? part := by
  obtain ⟨before, after, rfl⟩ := hpart
  exact h.lacks_of_clear (clear_append_iff.1 (clear_append_iff.1 hcs).1).2

/-! ## Spellings that go on behind a text -/

/-- What is found with `rest` behind and not without it is spelled with characters of `rest`. -/
theorem cases_append (h : GoesBy at? Spells) {cs rest : List Char} {found : α}
    (hfound : at? (cs ++ rest) = some found) :
    at? cs = some found ∨ ∃ c beyond, Spells (cs ++ c :: beyond) ∧ c :: beyond <+: rest := by
  obtain ⟨spelling, hspells, hfront, hspelling⟩ := h _ _ hfound
  obtain ⟨after, hafter⟩ | ⟨beyond, rfl⟩ :=
    List.prefix_or_prefix_of_prefix hfront (List.prefix_append cs rest)
  · exact .inl (hafter ▸ hspelling after)
  · cases beyond with
    | nil => exact .inl (by simpa using hspelling [])
    | cons c beyond =>
      exact .inr ⟨c, beyond, hspells, (List.prefix_append_right_inj cs).1 hfront⟩

/-- A text in which nothing is found stays so where no spelling can go on behind it. -/
theorem clear_of_lacks (h : GoesBy at? Spells) {cs rest : List Char} (hcs : Lacks at? cs)
    (hrest : ∀ s, s ≠ [] → s <:+ cs → ∀ c beyond, c :: beyond <+: rest → ¬ Spells (s ++ c :: beyond)) :
    Clear at? cs rest := by
  intro s hne hs
  by_contra hfound
  obtain ⟨found, hfound⟩ := Option.ne_none_iff_exists'.1 hfound
  obtain hinside | ⟨c, beyond, hspells, hfront⟩ := h.cases_append hfound
  · have hnone := hcs s hne hs
    rw [List.append_nil, hinside] at hnone
    cases hnone
  · exact hrest s hne hs c beyond hfront hspells

/-- Nothing begins at a character that begins no spelling. -/
theorem eq_none_of_head (h : GoesBy at? Spells) {c : Char} (hnil : ¬ Spells [])
    (hc : ∀ s, ¬ Spells (c :: s)) (rest : List Char) : at? (c :: rest) = none := by
  by_contra hfound
  obtain ⟨found, hfound⟩ := Option.ne_none_iff_exists'.1 hfound
  obtain ⟨spelling, hspells, hfront, -⟩ := h _ _ hfound
  cases spelling with
  | nil => exact hnil hspells
  | cons d s =>
    obtain ⟨rfl, -⟩ := List.cons_prefix_cons.1 hfront
    exact hc s hspells

end GoesBy

end GrammarInduction.Text
