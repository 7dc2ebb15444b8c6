import GrammarInduction.Template

/-!
# Covering

A template covers another one if some filling of its slots, each by any number of tokens, gives the
other one. Literals have to agree; the slots of the other template are tokens like any other, and
only a slot can take them in.

`coverRow main other` tells for `other` and all its tails, longest first, whether `main` covers
them; `Template.covers` is its head. Filling the table row by row keeps the work to the product of
the two lengths.
-/

namespace GrammarInduction

namespace Cover

/-- For each place: whether the test holds there or at a later one. -/
def anyFrom : List Bool → List Bool
  | [] => []
  | b :: bs =>
    let rest := anyFrom bs
    (b || rest.headD false) :: rest

/-- The row of `token :: main` from the row of `main`. -/
def extend (token : Token) (other : List Token) (row : List Bool) : List Bool :=
  match token with
  | .slot _ => anyFrom row
  | .literal text =>
    other.zipWith (fun t covered => decide (t = .literal text) && covered) row.tail ++ [false]

/-- The row of the empty template: it covers the empty one alone. -/
def emptyRow (other : List Token) : List Bool := other.map (fun _ => false) ++ [true]

/-- Whether `main` covers `other` and each of its tails. -/
def coverRow : List Token → List Token → List Bool
  | [], other => emptyRow other
  | token :: main, other => extend token other (coverRow main other)

/-- Whether the tokens `main` cover the tokens `other`. -/
def coversTokens (main other : List Token) : Bool := (coverRow main other).headD false

@[simp] theorem length_anyFrom (bs : List Bool) : (anyFrom bs).length = bs.length := by
  induction bs <;> simp_all [anyFrom]

@[simp] theorem length_coverRow (main other : List Token) :
    (coverRow main other).length = other.length + 1 := by
  induction main with
  | nil => simp [coverRow, emptyRow]
  | cons token main ih => cases token <;> simp [coverRow, extend, ih]

/-- The row of a shorter `other` is the rest of the row. -/
theorem coverRow_cons (main : List Token) (t : Token) (other : List Token) :
    (coverRow main (t :: other)).tail = coverRow main other := by
  induction main with
  | nil => simp [coverRow, emptyRow]
  | cons token main ih =>
    obtain ⟨b, bs, hrow⟩ : ∃ b bs, coverRow main (t :: other) = b :: bs := by
      cases h : coverRow main (t :: other) with
      | nil => simpa using congrArg List.length h
      | cons b bs => exact ⟨b, bs, rfl⟩
    rw [hrow, List.tail_cons] at ih
    obtain ⟨c, cs, hrow'⟩ : ∃ c cs, coverRow main other = c :: cs := by
      cases h : coverRow main other with
      | nil => simpa using congrArg List.length h
      | cons c cs => exact ⟨c, cs, rfl⟩
    cases token with
    | slot s => simp [coverRow, extend, hrow, anyFrom, ih]
    | literal text => simp [coverRow, extend, hrow, ih, hrow']

theorem coversTokens_nil (other : List Token) : coversTokens [] other = other.isEmpty := by
  cases other <;> simp [coversTokens, coverRow, emptyRow]

theorem coversTokens_literal (text : String) (main : List Token) (t : Token)
    (other : List Token) :
    coversTokens (.literal text :: main) (t :: other) =
      (decide (t = .literal text) && coversTokens main other) := by
  have h := coverRow_cons main t other
  simp only [coversTokens, coverRow, extend, h]
  cases hrow : coverRow main other with
  | nil => simp
  | cons b bs => simp

theorem coversTokens_literal_nil (text : String) (main : List Token) :
    coversTokens (.literal text :: main) [] = false := by
  simp [coversTokens, coverRow, extend]

theorem coversTokens_slot_nil (s : Slot) (main : List Token) :
    coversTokens (.slot s :: main) [] = coversTokens main [] := by
  simp only [coversTokens, coverRow, extend]
  cases hrow : coverRow main [] with
  | nil => simp [anyFrom]
  | cons b bs =>
    have : bs = [] := by simpa [hrow] using length_coverRow main []
    simp [anyFrom, this]

theorem coversTokens_slot_cons (s : Slot) (main : List Token) (t : Token) (other : List Token) :
    coversTokens (.slot s :: main) (t :: other) =
      (coversTokens main (t :: other) || coversTokens (.slot s :: main) other) := by
  have h := coverRow_cons main t other
  simp only [coversTokens, coverRow, extend]
  cases hrow : coverRow main (t :: other) with
  | nil => simpa using congrArg List.length hrow
  | cons b bs =>
    rw [hrow, List.tail_cons] at h
    simp [anyFrom, h]

end Cover

/-- Whether some filling of the slots of `main` gives `other`. -/
def Template.covers (main other : Template) : Bool :=
  Cover.coversTokens main.tokens other.tokens

end GrammarInduction
