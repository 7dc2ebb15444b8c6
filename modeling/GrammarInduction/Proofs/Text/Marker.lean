import GrammarInduction.Proofs.Text.Spelling
import GrammarInduction.Proofs.Text.Words
import GrammarInduction.Template
import Mathlib.Data.List.TakeWhile

/-!
# Slots found again in a text

A slot takes the characters of its spelling, and is found wherever they stand
(`slotAt?_eq_some_iff`). No blank and no mark of punctuation is among them, so that no slot begins
in a word without slots and ends behind it (`clear_slotAt?`).

The tokens that a text is cut into are `Written`: slots with a name that can be read, and words
without slots (`written_of_mem_tokens`). Joined by `joinWords` such tokens are cut into the same
tokens again, up to the numbers of anonymous slots (`formOf_joinWords`).
-/

namespace GrammarInduction

/-- How a token is written in a style. -/
def SlotStyle.write : SlotStyle → Token → String
  | angle => Token.render
  | hash => Token.renderHash

namespace Text

/-! ## Where slots are found -/

/-- Characters that can stand for the name of a slot. -/
def IsName (name : List Char) : Prop := name ≠ [] ∧ ∀ c ∈ name, isNameChar c = true

namespace Piece

/-- The characters of a piece. -/
def spelling (style : SlotStyle) : Piece → List Char
  | text content => content
  | named name => style.opening :: name ++ [style.closing]
  | anonymous => Slot.marker.toList

/-- Whether a piece is a slot, with a name that can be read. -/
def IsSlot : Piece → Prop
  | text _ => False
  | named name => IsName name
  | anonymous => True

end Piece

theorem takeWhile_append_of_forall {α : Type} {p : α → Bool} {as : List α} {b : α}
    (has : ∀ a ∈ as, p a = true) (hb : p b = false) (bs : List α) :
    (as ++ b :: bs).takeWhile p = as ∧ (as ++ b :: bs).dropWhile p = b :: bs := by
  rw [List.takeWhile_append_of_pos has, List.dropWhile_append_of_pos has]
  simp [hb]

theorem name?_append {name : List Char} {d : Char} (hname : IsName name)
    (hd : isNameChar d = false) (rest : List Char) : name? (name ++ d :: rest) = some (name, d :: rest) := by
  obtain ⟨htake, hdrop⟩ := takeWhile_append_of_forall hname.2 hd rest
  simp [name?, htake, hdrop, hname.1]

theorem name?_eq_some {text name rest : List Char} (h : name? text = some (name, rest)) :
    IsName name ∧ text = name ++ rest := by
  simp only [name?] at h
  split at h
  · cases h
  next hne =>
    obtain ⟨rfl, rfl⟩ : text.takeWhile isNameChar = name ∧ text.dropWhile isNameChar = rest := by
      simpa using h
    exact ⟨⟨by simpa using hne, fun c hc => List.mem_takeWhile_imp hc⟩,
      List.takeWhile_append_dropWhile.symm⟩

theorem isNameChar_closing (style : SlotStyle) : isNameChar style.closing = false := by
  cases style <;> rfl

theorem opening_ne (style : SlotStyle) : style.opening ≠ '[' := by
  cases style <;> decide

theorem of_slotAt?_eq_some {style : SlotStyle} {text : List Char} {piece : Piece} {n : Nat}
    (h : slotAt? style text = some (piece, n)) :
    piece.IsSlot ∧ n = (piece.spelling style).length ∧ piece.spelling style <+: text := by
  unfold slotAt? at h
  split at h
  next hmarker =>
    obtain ⟨rfl, rfl⟩ : .anonymous = piece ∧ Slot.marker.toList.length = n := by simpa using h
    exact ⟨trivial, rfl, List.isPrefixOf_iff_prefix.1 hmarker⟩
  · split at h
    · cases h
    next c rest =>
      split at h
      next hc =>
        split at h
        next name d after hname =>
          obtain ⟨hIs, rfl⟩ := name?_eq_some hname
          split at h
          next hd =>
            obtain ⟨rfl, rfl⟩ : .named name = piece ∧ name.length + 2 = n := by simpa using h
            exact ⟨hIs, by simp [Piece.spelling], ⟨after, by simp [Piece.spelling, hc, hd]⟩⟩
          · cases h
        · cases h
      · cases h

theorem slotAt?_spelling {style : SlotStyle} {piece : Piece} (hslot : piece.IsSlot)
    (rest : List Char) : slotAt? style (piece.spelling style ++ rest) =
      some (piece, (piece.spelling style).length) := by
  cases piece with
  | text content => exact hslot.elim
  | anonymous =>
    have hmarker : Slot.marker.toList.isPrefixOf (Slot.marker.toList ++ rest) = true :=
      List.isPrefixOf_iff_prefix.2 (List.prefix_append _ _)
    rw [Piece.spelling, slotAt?.eq_def, if_pos hmarker]
  | named name =>
    have hname := name?_append hslot (isNameChar_closing style) rest
    have hmarker : ¬ Slot.marker.toList.isPrefixOf
        (Piece.spelling style (.named name) ++ rest) = true := by
      have hbracket : Slot.marker.toList = '[' :: "SLOT]".toList := by decide
      simp [hbracket, Piece.spelling, List.isPrefixOf, (opening_ne style).symm]
    rw [slotAt?.eq_def, if_neg hmarker]
    simp [Piece.spelling, hname]

/-- **A slot is found where its spelling stands, and nowhere else.** -/
theorem slotAt?_eq_some_iff {style : SlotStyle} {text : List Char} {piece : Piece} {n : Nat} :
    slotAt? style text = some (piece, n) ↔
      piece.IsSlot ∧ n = (piece.spelling style).length ∧ piece.spelling style <+: text := by
  refine ⟨of_slotAt?_eq_some, ?_⟩
  rintro ⟨hslot, rfl, rest, rfl⟩
  exact slotAt?_spelling hslot rest

/-! ## Words without slots -/

/-- Characters that a slot is not spelled with. -/
def isOutside (c : Char) : Bool := isBlank c || isPunctuation c

theorem isBlank_of_isNameChar {c : Char} (h : isNameChar c = true) : isBlank c = false := by
  have hbounds : 0x2D ≤ c.toNat ∧ c.toNat ≤ 0x7A := by
    change ((decide (65 ≤ c.val ∧ c.val ≤ 90) || (decide (97 ≤ c.val) && decide (c.val ≤ 122)) ||
      (decide (48 ≤ c.val) && decide (c.val ≤ 57))) || c == '_' || c == '-') = true at h
    simp only [Bool.or_eq_true, Bool.and_eq_true, decide_eq_true_eq, beq_iff_eq,
      UInt32.le_iff_toNat_le] at h
    change 0x2D ≤ c.val.toNat ∧ c.val.toNat ≤ 0x7A
    rcases h with (((h | h) | h) | rfl) | rfl <;> simp_all <;> omega
  have houtside : ∀ range ∈ blankRanges, range.2 < 0x2D ∨ 0x7A < range.1 := by decide
  rw [isBlank, List.any_eq_false]
  intro range hrange
  have hrange := houtside range hrange
  simp only [Bool.and_eq_true, decide_eq_true_eq]
  omega

theorem isOutside_of_isNameChar {c : Char} (h : isNameChar c = true) : isOutside c = false := by
  rw [isOutside, isBlank_of_isNameChar h, Bool.false_or]
  have hall : punctuation.all (fun p => !isNameChar p) = true := by decide
  by_contra hc
  have hmem : c ∈ punctuation := by simpa [isPunctuation] using hc
  have hno := List.all_eq_true.1 hall c hmem
  rw [h] at hno
  cases hno

theorem isOutside_of_mem_spelling {style : SlotStyle} {piece : Piece} (hslot : piece.IsSlot)
    {c : Char} (hc : c ∈ piece.spelling style) : isOutside c = false := by
  cases piece with
  | text content => exact hslot.elim
  | anonymous =>
    have hall : Slot.marker.toList.all (fun c => !isOutside c) = true := by decide
    simpa using List.all_eq_true.1 hall c hc
  | named name =>
    have hends : isOutside style.opening = false ∧ isOutside style.closing = false := by
      cases style <;> decide
    rw [Piece.spelling, List.mem_append, List.mem_cons, List.mem_singleton] at hc
    obtain (rfl | hc) | rfl := hc
    · exact hends.1
    · exact isOutside_of_isNameChar (hslot.2 c hc)
    · exact hends.2

theorem Piece.IsSlot.spelling_ne_nil {piece : Piece} (h : piece.IsSlot) (style : SlotStyle) :
    piece.spelling style ≠ [] := by
  cases piece with
  | text content => exact h.elim
  | named name => simp [Piece.spelling]
  | anonymous => simp [Piece.spelling, Slot.marker]

/-- Characters of which the spelling of a slot is made. -/
def InsideSlot (cs : List Char) : Prop := cs ≠ [] ∧ ∀ c ∈ cs, isOutside c = false

/-- Slots are found by their spelling. -/
theorem goesBy_slotAt? (style : SlotStyle) : GoesBy (slotAt? style) InsideSlot := by
  rintro text ⟨piece, n⟩ hfound
  obtain ⟨hslot, hn, hfront⟩ := slotAt?_eq_some_iff.1 hfound
  exact ⟨piece.spelling style, ⟨hslot.spelling_ne_nil style, fun c hc => isOutside_of_mem_spelling hslot hc⟩,
    hfront, fun rest => slotAt?_eq_some_iff.2 ⟨hslot, hn, List.prefix_append _ rest⟩⟩

variable {style : SlotStyle}

/-- No slot begins at a character that it is not spelled with. -/
theorem slotAt?_of_isOutside {c : Char} (hc : isOutside c = true) (rest : List Char) :
    slotAt? style (c :: rest) = none := by
  refine (goesBy_slotAt? style).eq_none_of_head (fun h => h.1 rfl) (fun s hs => ?_) rest
  rw [hs.2 c List.mem_cons_self] at hc
  cases hc

/-- **No slot begins in a word without slots and ends behind it.** -/
theorem clear_slotAt? {cs rest : List Char} (h : Lacks (slotAt? style) cs)
    (hrest : ∀ c ∈ rest.head?, isOutside c = true) : Clear (slotAt? style) cs rest := by
  refine (goesBy_slotAt? style).clear_of_lacks h fun s _ _ c beyond hfront hinside => ?_
  obtain ⟨after, rfl⟩ := hfront
  have hc := hrest c rfl
  rw [hinside.2 c (by simp)] at hc
  cases hc

/-! ## The form of a text -/

/-- What a piece adds to the form of a text. -/
def Piece.form : Piece → List Token
  | text content => (wordsOf content).map fun word => .literal (String.ofList word)
  | named name => [.slot (.named (String.ofList name))]
  | anonymous => [.slot (.anonymous 0)]

/-- The tokens of a text without the numbers of anonymous slots. -/
def formOf (style : SlotStyle) (text : List Char) : List Token :=
  (pieces style text).flatMap Piece.form

theorem erase_tokensOfPieces (ps : List Piece) (supply : Nat) :
    (tokensOfPieces words ps supply).1.map Token.erase = ps.flatMap Piece.form := by
  induction ps generalizing supply with
  | nil => rfl
  | cons piece ps ih =>
    cases piece <;>
      simp [tokensOfPieces, ih, Piece.form, words_eq, Token.erase, Slot.erase, Function.comp_def]

/-- Which numbers are left for anonymous slots does not matter for the form. -/
theorem form_parse (style : SlotStyle) (text : String) (supply : Nat) :
    (Template.parse words style text supply).1.form = formOf style text.toList :=
  erase_tokensOfPieces _ supply

theorem form_closeText (read : List Char) :
    (closeText read).flatMap Piece.form =
      (wordsOf read.reverse).map fun word => .literal (String.ofList word) := by
  cases read <;> simp [closeText, Piece.form]

/-! ## What tokens are cut from a text -/

/-- A piece of a text: a slot, or characters without slots. -/
def Piece.Found (style : SlotStyle) : Piece → Prop
  | text content => Lacks (slotAt? style) content
  | named name => IsName name
  | anonymous => True

theorem found_closeText {read rest : List Char} (h : Clear (slotAt? style) read.reverse rest) :
    ∀ piece ∈ closeText read, piece.Found style := by
  intro piece hpiece
  unfold closeText at hpiece
  split at hpiece
  · cases hpiece
  · obtain rfl := List.mem_singleton.1 hpiece
    exact (goesBy_slotAt? style).lacks_of_clear h

theorem found_of_mem_piecesFrom {read cs : List Char} {skip : Nat}
    (h : Clear (slotAt? style) read.reverse (cs.drop skip)) :
    ∀ piece ∈ piecesFrom style read skip cs, piece.Found style := by
  induction cs generalizing read skip with
  | nil => cases skip <;> exact found_closeText h
  | cons c rest ih =>
    cases skip with
    | succ skip => exact ih h
    | zero =>
      rw [piecesFrom]
      split
      next piece length hfound =>
        rw [List.forall_mem_append, List.forall_mem_cons]
        refine ⟨found_closeText h, ?_, ih (clear_nil _)⟩
        obtain ⟨hslot, -, -⟩ := slotAt?_eq_some_iff.1 hfound
        cases piece with
        | text content => exact hslot.elim
        | named name => exact hslot
        | anonymous => trivial
      next hnone =>
        refine ih ?_
        rw [List.reverse_cons]
        exact Clear.concat h hnone

/-- The pieces of a text are found there. -/
theorem found_of_mem_pieces (style : SlotStyle) (text : List Char) :
    ∀ piece ∈ pieces style text, piece.Found style :=
  found_of_mem_piecesFrom (clear_nil _)

/-- Tokens that can be cut from a text: a word without slots, or a slot whose name can be read. -/
def Written (style : SlotStyle) : Token → Prop
  | .literal text => IsWord text.toList ∧ Lacks (slotAt? style) text.toList
  | .slot (.named name) => IsName name.toList
  | .slot (.anonymous _) => True

theorem written_of_mem_tokensOfPieces {ps : List Piece} (h : ∀ piece ∈ ps, piece.Found style)
    (supply : Nat) : ∀ token ∈ (tokensOfPieces words ps supply).1, Written style token := by
  induction ps generalizing supply with
  | nil => exact fun token htoken => absurd htoken List.not_mem_nil
  | cons piece ps ih =>
    obtain ⟨hpiece, hps⟩ := List.forall_mem_cons.1 h
    cases piece with
    | text content =>
      rw [tokensOfPieces, words_eq, String.toList_ofList, List.forall_mem_append, List.forall_mem_map,
        List.forall_mem_map]
      refine ⟨fun word hword => ?_, ih hps supply⟩
      rw [Written, String.toList_ofList]
      exact ⟨isWord_of_mem_wordsOf hword, (goesBy_slotAt? style).lacks_part hpiece (infix_of_mem_wordsOf hword)⟩
    | named name =>
      refine List.forall_mem_cons.2 ⟨?_, ih hps supply⟩
      rw [Written, String.toList_ofList]
      exact hpiece
    | anonymous => exact List.forall_mem_cons.2 ⟨trivial, ih hps (supply + 1)⟩

/-- **What is cut from a text can be cut from one.** -/
theorem written_of_mem_tokens (style : SlotStyle) (text : String) (supply : Nat) :
    ∀ token ∈ (tokens words style text supply).1, Written style token :=
  written_of_mem_tokensOfPieces (found_of_mem_pieces style text.toList) supply

/-! ## Cutting what has been joined -/

/-- Characters in which no slot begins are read as text. -/
theorem piecesFrom_of_clear {cs rest : List Char} (h : Clear (slotAt? style) cs rest) (read : List Char) :
    piecesFrom style read 0 (cs ++ rest) = piecesFrom style (cs.reverse ++ read) 0 rest := by
  induction cs generalizing read with
  | nil => rfl
  | cons c cs ih =>
    obtain ⟨hnone, hrest⟩ := clear_cons_iff.1 h
    rw [List.cons_append, piecesFrom, hnone]
    refine (ih hrest (c :: read)).trans ?_
    rw [List.reverse_cons, List.append_assoc, List.singleton_append]

theorem piecesFrom_skip (read cs rest : List Char) :
    piecesFrom style read cs.length (cs ++ rest) = piecesFrom style read 0 rest := by
  induction cs with
  | nil => rfl
  | cons c cs ih => exact ih

/-- A slot that is spelled out is read as that slot. -/
theorem piecesFrom_spelling {piece : Piece} (h : piece.IsSlot) (read rest : List Char) :
    piecesFrom style read 0 (piece.spelling style ++ rest) =
      closeText read ++ piece :: piecesFrom style [] 0 rest := by
  obtain ⟨c, cs, hcs⟩ := List.exists_cons_of_ne_nil (h.spelling_ne_nil style)
  have hfound := slotAt?_eq_some_iff.2 ⟨h, rfl, List.prefix_append (piece.spelling style) rest⟩
  rw [hcs, List.cons_append] at hfound ⊢
  rw [piecesFrom, hfound]
  simp [piecesFrom_skip]

/-- The piece of a slot. -/
def pieceOf : Slot → Piece
  | .named name => .named name.toList
  | .anonymous _ => .anonymous

theorem toList_write_slot (style : SlotStyle) (slot : Slot) :
    (style.write (.slot slot)).toList = (pieceOf slot).spelling style := by
  cases style <;> cases slot <;>
    simp [SlotStyle.write, Token.render, Token.renderHash, Slot.render, Slot.renderHash, pieceOf,
      Piece.spelling, SlotStyle.opening, SlotStyle.closing]

theorem write_literal (style : SlotStyle) (text : String) : style.write (.literal text) = text := by
  cases style <;> rfl

theorem form_pieceOf (slot : Slot) : (pieceOf slot).form = [Token.erase (.slot slot)] := by
  cases slot <;> simp [pieceOf, Piece.form, Token.erase, Slot.erase]

theorem isSlot_pieceOf {slot : Slot} (h : Written style (.slot slot)) : (pieceOf slot).IsSlot := by
  cases slot with
  | named name => exact h
  | anonymous id => trivial

/-- What follows a piece begins outside slots, unless the piece opens a bracket. -/
theorem head?_joinWordsAfter {before : String} (hbefore : before ≠ "(") (pieces : List String) :
    ∀ c ∈ (joinWordsAfter before pieces).toList.head?, isOutside c = true := by
  cases pieces with
  | nil => simp [joinWordsAfter]
  | cons piece rest =>
    rw [toList_joinWordsAfter_cons, gap]
    split
    next hsticks =>
      have hmark : closingMarks.contains piece = true := by simpa [sticks, hbefore] using hsticks
      obtain ⟨-, p, hp, hpiece⟩ := eq_mark_of_closes hmark
      simp [hpiece, isOutside, hp]
    · simpa using (by decide : isOutside ' ' = true)

/-- No slot begins in a gap. -/
theorem clear_gap (before after : String) (rest : List Char) : Clear (slotAt? style) (gap before after) rest :=
  clear_of_forall (fun c hc => slotAt?_of_isOutside (eq_of_mem_gap hc ▸ by decide)) rest

/-- No slot begins in a literal of a joined text. -/
theorem clear_joinWordsAfter {word : String} (h : Lacks (slotAt? style) word.toList) (pieces : List String) :
    Clear (slotAt? style) word.toList (joinWordsAfter word pieces).toList := by
  by_cases hword : word = "("
  · subst hword
    have hbracket : "(".toList.all isOutside = true := by decide
    exact clear_of_forall (fun c hc => slotAt?_of_isOutside (List.all_eq_true.1 hbracket c hc)) _
  · exact clear_slotAt? h (head?_joinWordsAfter hword pieces)

/-- The tokens that follow `before` in a joined text, and the words read before them. -/
theorem form_joinWordsAfter {tokens : List Token} (h : ∀ token ∈ tokens, Written style token)
    {before : String} (read : List Char) (hread : EndsWith before read.reverse) :
    (piecesFrom style read 0 (joinWordsAfter before (tokens.map style.write)).toList).flatMap
        Piece.form =
      (wordsOf read.reverse).map (fun word => .literal (String.ofList word)) ++
        tokens.map Token.erase := by
  induction tokens generalizing before read with
  | nil => simpa [joinWordsAfter, piecesFrom] using form_closeText read
  | cons token tokens ih =>
    obtain ⟨htoken, htokens⟩ := List.forall_mem_cons.1 h
    rw [List.map_cons, List.map_cons, toList_joinWordsAfter_cons, piecesFrom_of_clear (clear_gap _ _ _)]
    cases token with
    | literal word =>
      rw [write_literal, piecesFrom_of_clear (clear_joinWordsAfter htoken.2 _)]
      have hreverse : (word.toList.reverse ++ ((gap before word).reverse ++ read)).reverse =
          read.reverse ++ (gap before word ++ word.toList) := by simp
      obtain ⟨hwords, hends⟩ := hread.join htoken.1
      rw [ih htokens _ (hreverse ▸ hends), hreverse, hwords]
      simp [Token.erase]
    | slot slot =>
      have hslot := isSlot_pieceOf htoken
      rw [toList_write_slot, piecesFrom_spelling hslot, List.flatMap_append, form_closeText,
        List.flatMap_cons, form_pieceOf, ih htokens [] (.of_open open_nil), List.reverse_append,
        List.reverse_reverse, wordsOf_gap]
      simp

/-- **Joined tokens are cut into the same tokens again.** -/
theorem formOf_joinWords {tokens : List Token} (h : ∀ token ∈ tokens, Written style token) :
    formOf style (joinWords (tokens.map style.write)).toList = tokens.map Token.erase := by
  rw [joinWords_eq_joinWordsAfter]
  exact form_joinWordsAfter h [] (.of_open open_nil)

end Text

end GrammarInduction
