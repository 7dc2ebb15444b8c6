import GrammarInduction.Text.Spacing
import GrammarInduction.Text.Words
import Mathlib.Data.List.TakeWhile

/-!
# Words joined and cut again

`wordsOf` cuts characters into words. A blank cuts (`wordsOf_blank`), a mark of punctuation at the
end is a word of its own (`wordsOf_concat`), and behind a bracket that begins a run the next
characters are cut as if they stood alone (`Open`). These are the three places where `joinWords`
puts a word, so that a word is found again behind whatever it was joined to (`wordsOf_sticking`).
-/

namespace GrammarInduction.Text

/-- The words of characters, with the punctuation at their ends apart. -/
def wordsOf (cs : List Char) : List (List Char) := (chunksOf cs).flatMap edges

theorem words_eq (text : String) : words text = (wordsOf text.toList).map String.ofList := rfl

/-- Characters that are one word. -/
def IsWord (cs : List Char) : Prop := wordsOf cs = [cs]

@[simp] theorem wordsOf_nil : wordsOf [] = [] := rfl

/-! ## Punctuation -/

theorem isBlank_eq_false_of_isPunctuation {c : Char} (h : isPunctuation c = true) :
    isBlank c = false := by
  have hall : punctuation.all (fun p => !isBlank p) = true := by decide
  simpa using List.all_eq_true.1 hall c (by simpa [isPunctuation] using h)

theorem edges_cons {p : Char} (hp : isPunctuation p = true) (w : List Char) :
    edges (p :: w) = [p] :: edges w := by
  simp [edges, hp]

theorem edges_concat {p : Char} (hp : isPunctuation p = true) (w : List Char) :
    edges (w ++ [p]) = edges w ++ [[p]] := by
  induction w with
  | nil => simp [edges, hp]
  | cons c w ih =>
    by_cases hc : isPunctuation c = true
    · rw [List.cons_append, edges_cons hc, edges_cons hc, ih, List.cons_append]
    · simp [edges, hc, hp, -List.isEmpty_iff, -List.dropWhile_eq_nil_iff]

/-- A word without punctuation at its ends is left as it is. -/
theorem edges_eq_singleton {c d : Char} {w : List Char} (hc : isPunctuation c = false)
    (hd : isPunctuation d = false) (hw : w.head? = some c) (hw' : w.getLast? = some d) :
    edges w = [w] := by
  have hfront : w.takeWhile isPunctuation = [] ∧ w.dropWhile isPunctuation = w := by
    obtain ⟨rest, rfl⟩ := List.head?_eq_some_iff.1 hw
    simp [hc]
  have hback : w.reverse.takeWhile isPunctuation = [] ∧
      w.reverse.dropWhile isPunctuation = w.reverse := by
    obtain ⟨rest, rfl⟩ := List.getLast?_eq_some_iff.1 hw'
    simp [hd]
  have hne : w ≠ [] := by
    rintro rfl
    cases hw
  simp [edges, hfront, hback, hne]

/-- The parts of a word have no punctuation at their ends that could be split off. -/
theorem edges_of_mem_edges {w part : List Char} (h : part ∈ edges w) : edges part = [part] := by
  -- Marks are taken off the front and the back one by one, until there are none.
  induction hn : w.length using Nat.strongRecOn generalizing w with
  | ind n ih =>
    have hmark {p : Char} (hp : isPunctuation p = true) : edges [p] = [[p]] := edges_cons hp []
    obtain rfl | ⟨front, d, rfl⟩ := List.eq_nil_or_concat w
    · cases h
    rw [List.concat_eq_append] at h hn
    cases hd : isPunctuation d with
    | true =>
      rw [edges_concat hd, List.mem_append, List.mem_singleton] at h
      obtain h | rfl := h
      · exact ih front.length (by simp [← hn]) h rfl
      · exact hmark hd
    | false =>
      obtain ⟨c, back, hcons⟩ : ∃ c back, front ++ [d] = c :: back :=
        List.exists_cons_of_ne_nil (by simp)
      cases hc : isPunctuation c with
      | true =>
        rw [hcons, edges_cons hc, List.mem_cons] at h
        obtain rfl | h := h
        · exact hmark hc
        · exact ih back.length (by simp [← hn, hcons]) h rfl
      | false =>
        have hw := edges_eq_singleton hc hd (by rw [hcons, List.head?_cons]) List.getLast?_concat
        rw [hw, List.mem_singleton] at h
        rw [h, hw]

/-! ## Runs -/

theorem chunksFrom_of_not_blank {w : List Char} (hw : ∀ c ∈ w, isBlank c = false) (run : List Char) :
    chunksFrom run w = chunksFrom (w.reverse ++ run) [] := by
  induction w generalizing run with
  | nil => rfl
  | cons c w ih =>
    rw [List.forall_mem_cons] at hw
    have hstep : chunksFrom run (c :: w) = chunksFrom (c :: run) w := by simp [chunksFrom, hw.1]
    rw [hstep, ih hw.2, List.reverse_cons, List.append_assoc, List.singleton_append]

/-- Characters without a blank are one run. -/
theorem wordsOf_of_not_blank {w : List Char} (hw : ∀ c ∈ w, isBlank c = false) :
    wordsOf w = edges w := by
  rw [wordsOf, chunksOf, chunksFrom_of_not_blank hw, List.append_nil]
  cases h : w.reverse with
  | nil => simp [List.reverse_eq_nil_iff.1 h, chunksFrom, edges]
  | cons c run => simp [chunksFrom, ← h]

theorem chunksFrom_append_blank {b : Char} (hb : isBlank b = true) (run cs w : List Char) :
    chunksFrom run (cs ++ b :: w) = chunksFrom run cs ++ chunksFrom [] w := by
  induction cs generalizing run with
  | nil => cases run <;> simp [chunksFrom, hb]
  | cons c cs ih =>
    simp only [List.cons_append, chunksFrom]
    split
    · split <;> simp [ih]
    · exact ih (c :: run)

/-- A blank cuts. -/
theorem wordsOf_blank {b : Char} (hb : isBlank b = true) (cs w : List Char) :
    wordsOf (cs ++ b :: w) = wordsOf cs ++ wordsOf w := by
  rw [wordsOf, chunksOf, chunksFrom_append_blank hb, List.flatMap_append]
  rfl

/-- A mark of punctuation at the end is a word of its own. -/
theorem wordsOf_concat {p : Char} (hp : isPunctuation p = true) (cs : List Char) :
    wordsOf (cs ++ [p]) = wordsOf cs ++ [[p]] := by
  have hblank := isBlank_eq_false_of_isPunctuation hp
  suffices h : ∀ run, (chunksFrom run (cs ++ [p])).flatMap edges =
      (chunksFrom run cs).flatMap edges ++ [[p]] from h []
  induction cs with
  | nil =>
    intro run
    cases run with
    | nil => simp [chunksFrom, hblank, edges, hp]
    | cons c run => simpa [chunksFrom, hblank] using edges_concat hp (c :: run).reverse
  | cons c cs ih =>
    intro run
    simp only [List.cons_append, chunksFrom]
    split
    · split <;> simp [ih]
    · exact ih (c :: run)

/-- A run lies in the text, after what had been read. -/
theorem infix_of_mem_chunksFrom {run cs chunk : List Char} (h : chunk ∈ chunksFrom run cs) :
    chunk <:+: run.reverse ++ cs := by
  induction cs generalizing run with
  | nil =>
    cases run with
    | nil => cases h
    | cons c run => simp_all [chunksFrom]
  | cons c cs ih =>
    have hbehind (h : chunk ∈ chunksFrom [] cs) : chunk <:+: run.reverse ++ c :: cs := by
      have hsuffix : cs <:+ run.reverse ++ c :: cs := ⟨run.reverse ++ [c], by simp⟩
      exact (ih h).trans hsuffix.isInfix
    simp only [chunksFrom] at h
    split at h
    · split at h
      · exact hbehind h
      · obtain rfl | h := List.mem_cons.1 h
        · exact (List.prefix_append _ _).isInfix
        · exact hbehind h
    · simpa using ih h

theorem not_blank_of_mem_chunksOf {cs chunk : List Char} (h : chunk ∈ chunksOf cs) :
    ∀ c ∈ chunk, isBlank c = false := by
  intro c hc
  have hflat := List.mem_flatten_of_mem h hc
  rw [flatten_chunksOf, List.mem_filter] at hflat
  simpa using hflat.2

/-- A word lies in the text. -/
theorem infix_of_mem_wordsOf {cs w : List Char} (h : w ∈ wordsOf cs) : w <:+: cs := by
  obtain ⟨chunk, hchunk, hw⟩ := List.mem_flatMap.1 h
  have hlies := List.infix_of_mem_flatten hw
  rw [flatten_edges] at hlies
  exact hlies.trans (infix_of_mem_chunksFrom hchunk)

theorem not_blank_of_mem_wordsOf {cs w : List Char} (h : w ∈ wordsOf cs) :
    ∀ c ∈ w, isBlank c = false := by
  obtain ⟨chunk, hchunk, hw⟩ := List.mem_flatMap.1 h
  have hlies := List.infix_of_mem_flatten hw
  rw [flatten_edges] at hlies
  exact fun c hc => not_blank_of_mem_chunksOf hchunk c (hlies.subset hc)

/-- What is found as a word is one word. -/
theorem isWord_of_mem_wordsOf {cs w : List Char} (h : w ∈ wordsOf cs) : IsWord w := by
  obtain ⟨chunk, -, hw⟩ := List.mem_flatMap.1 h
  rw [IsWord, wordsOf_of_not_blank (not_blank_of_mem_wordsOf h)]
  exact edges_of_mem_edges hw

theorem IsWord.not_blank {w : List Char} (h : IsWord w) : ∀ c ∈ w, isBlank c = false := by
  have hmem : w ∈ wordsOf w := by
    rw [h]
    exact List.mem_singleton_self w
  exact not_blank_of_mem_wordsOf hmem

/-! ## Behind a bracket -/

/-- Characters behind which the next run is cut as if it stood alone. -/
def Open (cs : List Char) : Prop :=
  ∀ w : List Char, (∀ c ∈ w, isBlank c = false) → wordsOf (cs ++ w) = wordsOf cs ++ wordsOf w

theorem open_nil : Open [] := fun _ _ => rfl

theorem open_blank {b : Char} (hb : isBlank b = true) (cs : List Char) : Open (cs ++ [b]) := by
  intro w _
  rw [List.append_assoc, List.singleton_append, wordsOf_blank hb, wordsOf_blank hb, wordsOf_nil,
    List.append_nil]

/-- A bracket where a run begins keeps it so. -/
theorem Open.bracket {cs : List Char} (h : Open cs) : Open (cs ++ ['(']) := by
  intro w hw
  have hbracket : isBlank '(' = false := by decide
  have hcut : wordsOf ('(' :: w) = ['('] :: wordsOf w := by
    rw [wordsOf_of_not_blank (List.forall_mem_cons.2 ⟨hbracket, hw⟩), wordsOf_of_not_blank hw,
      edges_cons (by decide)]
  rw [List.append_assoc, List.singleton_append, h _ (List.forall_mem_cons.2 ⟨hbracket, hw⟩), hcut,
    h _ (by simp [hbracket]), List.append_assoc]
  rfl

/-! ## Joining -/

theorem eq_mark_of_closes {piece : String} (h : closingMarks.contains piece = true) :
    piece ≠ "(" ∧ ∃ p, isPunctuation p = true ∧ piece.toList = [p] := by
  have hall : ∀ mark ∈ closingMarks,
      mark ≠ "(" ∧ punctuation.any (fun p => mark.toList == [p]) = true := by
    decide
  obtain ⟨hne, hmark⟩ := hall piece (by simpa using h)
  obtain ⟨p, hp, hpiece⟩ := List.any_eq_true.1 hmark
  exact ⟨hne, p, by simpa [isPunctuation] using hp, by simpa using hpiece⟩

/-- What `joinWords` puts between two neighbours. -/
def gap (before after : String) : List Char := if sticks before after then [] else [' ']

theorem eq_of_mem_gap {before after : String} {c : Char} (h : c ∈ gap before after) :
    c = ' ' := by
  unfold gap at h
  split at h
  · cases h
  · exact List.mem_singleton.1 h

theorem wordsOf_gap (cs : List Char) (before after : String) :
    wordsOf (cs ++ gap before after) = wordsOf cs := by
  unfold gap
  split
  · rw [List.append_nil]
  · rw [wordsOf_blank (by decide), wordsOf_nil, List.append_nil]

theorem toList_joinWordsAfter_cons (before piece : String) (rest : List String) :
    (joinWordsAfter before (piece :: rest)).toList =
      gap before piece ++ (piece.toList ++ (joinWordsAfter piece rest).toList) := by
  rw [joinWordsAfter, String.toList_append, String.toList_append, List.append_assoc, gap]
  split <;> rfl

/-- The first piece stands as it would behind a bracket. -/
theorem joinWords_eq_joinWordsAfter (pieces : List String) :
    joinWords pieces = joinWordsAfter "(" pieces := by
  cases pieces <;> simp [joinWords, joinWordsAfter, sticks]

/-- Characters whose last word is `before`, as far as it matters what is joined next: behind an opening
bracket nothing is put, so that a run has to begin there. -/
def EndsWith (before : String) (cs : List Char) : Prop := before = "(" → Open cs

theorem EndsWith.of_open {before : String} {cs : List Char} (h : Open cs) : EndsWith before cs :=
  fun _ => h

/-- **A word is found again behind whatever it is joined to.** -/
theorem EndsWith.join {before : String} {cs : List Char} (h : EndsWith before cs) {word : String}
    (hword : IsWord word.toList) :
    wordsOf (cs ++ (gap before word ++ word.toList)) = wordsOf cs ++ [word.toList] ∧
      EndsWith word (cs ++ (gap before word ++ word.toList)) := by
  -- Either a run begins behind the gap, or the word is a mark that ends one.
  have hcases : Open (cs ++ gap before word) ∨
      gap before word = [] ∧ closingMarks.contains word = true := by
    unfold gap
    split
    next hsticks =>
      rw [sticks, Bool.or_eq_true, beq_iff_eq] at hsticks
      refine hsticks.imp (fun hbefore => ?_) fun hmark => ⟨rfl, hmark⟩
      rw [List.append_nil]
      exact h hbefore
    · exact .inl (open_blank (by decide) cs)
  obtain hopen | ⟨hgap, hmark⟩ := hcases
  · rw [← List.append_assoc]
    refine ⟨by rw [hopen _ hword.not_blank, wordsOf_gap, hword], ?_⟩
    rintro rfl
    exact hopen.bracket
  · obtain ⟨hne, p, hp, hmark⟩ := eq_mark_of_closes hmark
    refine ⟨by rw [hgap, hmark, List.nil_append, wordsOf_concat hp], fun hword => ?_⟩
    exact absurd hword hne

end GrammarInduction.Text
