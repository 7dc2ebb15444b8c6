import GrammarInduction.Proofs.Text.Marker

/-!
# Texts read and written again

Reading a text loses nothing but its blanks. It is cut into pieces that spelled out one after the
other are the text (`flatMap_spelling_pieces`), a slot is written with the characters that it was
found by, and the words between slots are the text there without its blanks (`flatten_wordsOf`). So
the tokens of a text, written without anything between them, are the text without its blanks; and
written with the spaces that `joinWords` puts, they are a text with the same tokens
(`parse_lossless`).
-/

namespace GrammarInduction

/-- The text that a detokenizer makes of the tokens, named slots written in a style. -/
def Template.write (style : SlotStyle) (join : Detokenizer) (t : Template) : String :=
  match style with
  | .angle => t.toText join
  | .hash => t.toHashText join

theorem Template.write_eq (style : SlotStyle) (join : Detokenizer) (t : Template) :
    t.write style join = join (t.tokens.map style.write) := by
  cases style <;> rfl

namespace Text

variable {style : SlotStyle}

/-! ## Pieces of a text -/

theorem flatMap_spelling_closeText (style : SlotStyle) (read : List Char) :
    (closeText read).flatMap (Piece.spelling style) = read.reverse := by
  cases read <;> simp [closeText, Piece.spelling]

theorem flatMap_spelling_piecesFrom (read cs : List Char) (skip : Nat) :
    (piecesFrom style read skip cs).flatMap (Piece.spelling style) = read.reverse ++ cs.drop skip := by
  induction cs generalizing read skip with
  | nil => cases skip <;> simp [piecesFrom, flatMap_spelling_closeText]
  | cons c rest ih =>
    cases skip with
    | succ skip => exact ih read skip
    | zero =>
      rw [piecesFrom]
      split
      next piece length hfound =>
        obtain ⟨hslot, rfl, after, hspelled⟩ := slotAt?_eq_some_iff.1 hfound
        obtain ⟨c', cs', hcs⟩ := List.exists_cons_of_ne_nil (hslot.spelling_ne_nil style)
        rw [hcs, List.cons_append, List.cons.injEq] at hspelled
        obtain ⟨rfl, rfl⟩ := hspelled
        rw [List.flatMap_append, List.flatMap_cons, ih, flatMap_spelling_closeText, hcs]
        simp
      · rw [ih, List.reverse_cons, List.append_assoc]
        rfl

/-- **The pieces of a text, spelled out, are the text.** -/
theorem flatMap_spelling_pieces (style : SlotStyle) (text : List Char) :
    (pieces style text).flatMap (Piece.spelling style) = text :=
  flatMap_spelling_piecesFrom [] text 0

/-! ## Tokens of a text -/

theorem flatten_wordsOf (cs : List Char) :
    (wordsOf cs).flatten = cs.filter fun c => !isBlank c := by
  rw [← flatten_chunksOf, wordsOf]
  induction chunksOf cs with
  | nil => rfl
  | cons chunk chunks ih =>
    rw [List.flatMap_cons, List.flatten_append, flatten_edges, ih, List.flatten_cons]

theorem isBlank_of_mem_spelling {piece : Piece} (h : piece.IsSlot) {c : Char}
    (hc : c ∈ piece.spelling style) : isBlank c = false :=
  (Bool.or_eq_false_iff.1 (isOutside_of_mem_spelling h hc)).1

/-- A slot is written as it was spelled, which is without blanks. -/
theorem filter_spelling_pieceOf (style : SlotStyle) {slot : Slot} (h : (pieceOf slot).IsSlot) :
    ((pieceOf slot).spelling style).filter (fun c => !isBlank c) = (style.write (.slot slot)).toList := by
  rw [toList_write_slot, List.filter_eq_self]
  exact fun c hc => by rw [isBlank_of_mem_spelling h hc]; rfl

/-- The tokens of pieces, written without anything between them, are the pieces without blanks. -/
theorem flatMap_write_tokensOfPieces {ps : List Piece} (h : ∀ piece ∈ ps, piece.Found style)
    (supply : Nat) :
    ((tokensOfPieces words ps supply).1.flatMap fun token => (style.write token).toList) =
      (ps.flatMap (Piece.spelling style)).filter fun c => !isBlank c := by
  induction ps generalizing supply with
  | nil => rfl
  | cons piece ps ih =>
    obtain ⟨hpiece, hps⟩ := List.forall_mem_cons.1 h
    rw [List.flatMap_cons, List.filter_append]
    cases piece with
    | text content =>
      rw [tokensOfPieces, List.flatMap_append, ih hps, Piece.spelling, words_eq, String.toList_ofList,
        List.flatMap_map, List.flatMap_map]
      simp [write_literal, flatten_wordsOf]
    | named name =>
      have hslot : (pieceOf (.named (String.ofList name))).IsSlot := by
        rwa [pieceOf, String.toList_ofList]
      have hwrite := filter_spelling_pieceOf style hslot
      rw [pieceOf, String.toList_ofList] at hwrite
      rw [tokensOfPieces, List.flatMap_cons, ih hps, hwrite]
    | anonymous =>
      have hslot : (pieceOf (.anonymous supply)).IsSlot := trivial
      rw [tokensOfPieces, List.flatMap_cons, ih hps]
      exact congrArg (· ++ _) (filter_spelling_pieceOf style hslot).symm

end Text

namespace Template

open Text

/-- **Reading a text loses nothing but its blanks, and what is read can be written and read again.** In
either style, the tokens that are read, written without anything between them, are the text without
its blanks. Written as words they are a text from which an equal template is read. -/
theorem parse_lossless (style : SlotStyle) (text : String) (supply supply' : Nat) :
    ((parse words style text supply).1.write style String.join).toList =
        text.toList.filter (fun c => !isBlank c) ∧
      ((parse words style ((parse words style text supply).1.write style joinWords) supply').1 ==
        (parse words style text supply).1) = true := by
  have htokens : (parse words style text supply).1.tokens = (Text.tokens words style text supply).1 := rfl
  rw [write_eq, write_eq, htokens]
  constructor
  · rw [String.toList_join, List.flatMap_map, Text.tokens,
      flatMap_write_tokensOfPieces (found_of_mem_pieces style text.toList), flatMap_spelling_pieces]
  · rw [beq_iff, form_parse, formOf_joinWords (written_of_mem_tokens style text supply)]
    rfl

end Template

end GrammarInduction
