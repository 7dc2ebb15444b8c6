import GrammarInduction.Json.Reader

/-!
# The lexemes of a JSON text that is written

* `scan?_encode`: a text that is written between quotes is read back.
* `Spells`: a text is cut into given lexemes, whatever follows it. Texts that spell lexemes are put
  together (`Spells.append`), so that the lexemes of a longer text are read off its parts.
-/

namespace GrammarInduction

namespace JsonText

/-! ## Texts between quotes -/

theorem hexValue?_hexDigit : ∀ n < 16, hexValue? (hexDigit n) = some n := by decide

/-- A control character is the value of the digits that are written for it. -/
theorem hexValues?_hexDigit {n : Nat} (h : n < 0x20) :
    hexValues? '0' '0' (hexDigit (n / 16)) (hexDigit (n % 16)) = some n := by
  have hzero : hexValue? '0' = some 0 := by decide
  rw [hexValues?, hzero, hexValue?_hexDigit _ (by omega), hexValue?_hexDigit _ (by omega)]
  refine congrArg some ?_
  omega

theorem ofCodePoint_control {c : Char} (h : c.toNat < 0x20) :
    CodeUnit.ofCodePoint c.toNat = .char c := by
  have hhigh : isHighHalf c.toNat = false := by simp [isHighHalf]; omega
  have hlow : isLowHalf c.toNat = false := by simp [isLowHalf]; omega
  rw [CodeUnit.ofCodePoint, hhigh, hlow, Char.ofNat_toNat]
  rfl

/-- A character is written as an escape of its own, by the digits of its code point, or as it is. -/
theorem encodeChar_cases (c : Char) :
    (∃ e, e ≠ 'u' ∧ escaped? e = some c ∧ encodeChar c = ['\\', e]) ∨
      (c.toNat < 0x20 ∧
        encodeChar c = ['\\', 'u', '0', '0', hexDigit (c.toNat / 16), hexDigit (c.toNat % 16)]) ∨
      (c ≠ '"' ∧ c ≠ '\\' ∧ 0x20 ≤ c.toNat ∧ encodeChar c = [c]) := by
  by_cases hspecial : c ∈ ['"', '\\', '\x08', '\t', '\n', '\x0c', '\r']
  · left
    simp only [List.mem_cons, List.not_mem_nil, or_false] at hspecial
    rcases hspecial with rfl | rfl | rfl | rfl | rfl | rfl | rfl
    · exact ⟨'"', by decide⟩
    · exact ⟨'\\', by decide⟩
    · exact ⟨'b', by decide⟩
    · exact ⟨'t', by decide⟩
    · exact ⟨'n', by decide⟩
    · exact ⟨'f', by decide⟩
    · exact ⟨'r', by decide⟩
  · right
    simp only [List.mem_cons, List.not_mem_nil, or_false, not_or] at hspecial
    obtain ⟨hquote, hbackslash, hb, ht, hn, hf, hr⟩ := hspecial
    simp only [encodeChar, hquote, hbackslash, hb, ht, hn, hf, hr, if_false]
    split
    next hcontrol => exact .inl ⟨hcontrol, rfl⟩
    next hplain => exact .inr ⟨hquote, hbackslash, by omega, rfl⟩

/-- Reading takes what is written for a character as that character. -/
theorem scanUnits?_encodeChar (read : List CodeUnit) (c : Char) (rest : List Char) :
    scanUnits? read (encodeChar c ++ rest) = scanUnits? (.char c :: read) rest := by
  rcases encodeChar_cases c with ⟨e, hu, he, heq⟩ | ⟨hcontrol, heq⟩ | ⟨hquote, hbackslash, hplain, heq⟩
  · simp [heq, scanUnits?, hu, he]
  · simp only [heq, List.cons_append, List.nil_append, scanUnits?, hexValues?_hexDigit hcontrol,
      ofCodePoint_control hcontrol]
  · simp [heq, scanUnits?, hbackslash, Nat.not_lt.2 hplain]

theorem scanUnits?_flatMap (read : List CodeUnit) (text rest : List Char) :
    scanUnits? read (text.flatMap encodeChar ++ '"' :: rest) =
      some (read.reverse ++ text.map .char, rest) := by
  induction text generalizing read with
  | nil => simp [scanUnits?]
  | cons c text ih =>
    rw [List.flatMap_cons, List.append_assoc, scanUnits?_encodeChar, ih]
    simp

theorem join?_map_char (text : List Char) : join? (text.map .char) = some text := by
  induction text with
  | nil => rfl
  | cons c text ih => rw [List.map_cons, join?, ih, Option.map_some]

/-- **A text that is written is read back**, up to its closing quote. -/
theorem scan?_encode (text rest : List Char) :
    scan? (text.flatMap encodeChar ++ '"' :: rest) = some (some (String.ofList text), rest) := by
  simp only [scan?, scanUnits?_flatMap, List.reverse_nil, List.nil_append, Option.map_some,
    join?_map_char]

end JsonText

namespace Lexeme

/-! ## Lexemes one after the other -/

/-- A text is cut into lexemes, and these are found whatever follows the text. -/
structure Spells (text : List Char) (lexemes : List Lexeme) : Prop where
  length_le : lexemes.length ≤ text.length
  scanAll? : ∀ (read : List Lexeme) (fuel : Nat) (rest : List Char),
    scanAll? read (lexemes.length + fuel) (text ++ rest) =
      Lexeme.scanAll? (lexemes.reverse ++ read) fuel rest

variable {text text' : List Char} {lexemes lexemes' : List Lexeme} {lexeme : Lexeme}

theorem spells_nil : Spells [] [] := ⟨Nat.le_refl _, fun read fuel rest => by simp⟩

theorem Spells.append (h : Spells text lexemes) (h' : Spells text' lexemes') :
    Spells (text ++ text') (lexemes ++ lexemes') := by
  refine ⟨?_, fun read fuel rest => ?_⟩
  · have := h.length_le
    have := h'.length_le
    simp only [List.length_append]
    omega
  · rw [List.append_assoc, List.length_append, Nat.add_assoc, h.scanAll?, h'.scanAll?,
      List.reverse_append, List.append_assoc]

theorem spells_flatMap {α : Type} {as : List α} {spelling : α → List Char}
    {lexemes : α → List Lexeme} (h : ∀ a ∈ as, Spells (spelling a) (lexemes a)) :
    Spells (as.flatMap spelling) (as.flatMap lexemes) := by
  induction as with
  | nil => exact spells_nil
  | cons a as ih => exact (h a List.mem_cons_self).append (ih fun b hb => h b (.tail _ hb))

/-- Blanks before a text make no lexeme. -/
theorem Spells.blanks (h : Spells text lexemes) (blanks : List Char)
    (hblanks : blanks.all isBlank = true) : Spells (blanks ++ text) lexemes := by
  have hskip (read : List Lexeme) (fuel : Nat) (rest : List Char) :
      Lexeme.scanAll? read fuel (blanks ++ rest) = Lexeme.scanAll? read fuel rest := by
    simp only [Lexeme.scanAll?.eq_def read fuel (blanks ++ rest), Lexeme.scanAll?.eq_def read fuel rest,
      List.dropWhile_append_of_pos (List.all_eq_true.1 hblanks)]
  refine ⟨?_, fun read fuel rest => ?_⟩
  · have := h.length_le
    simp only [List.length_append]
    omega
  · rw [List.append_assoc, hskip, h.scanAll?]

/-- A text that is a single lexeme. -/
theorem spells_one {c : Char} (hc : isBlank c = false)
    (h : ∀ rest, scan? (c :: text ++ rest) = some (lexeme, rest)) :
    Spells (c :: text) [lexeme] := by
  refine ⟨by simp, fun read fuel rest => ?_⟩
  have hfirst : (c :: text ++ rest).dropWhile isBlank = c :: (text ++ rest) :=
    List.dropWhile_cons_of_neg (by simp [hc])
  have hscan : scan? (c :: (text ++ rest)) = some (lexeme, rest) := h rest
  rw [List.length_singleton, Nat.add_comm, Lexeme.scanAll?.eq_def]
  simp only [hfirst, hscan]
  rfl

theorem spells_encode (text : String) :
    Spells (JsonText.encode text.toList) [.scalar (.text (some text))] := by
  refine spells_one (by decide) fun rest => ?_
  have hscan := JsonText.scan?_encode text.toList rest
  rw [String.ofList_toList] at hscan
  simp [scan?, hscan]

end Lexeme

end GrammarInduction
