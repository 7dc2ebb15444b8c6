import GrammarInduction.Grammar.Tracery
import GrammarInduction.Proofs.Text.Marker

/-!
# Modifiers and saved variables

Slots with modifiers and saved variables are found by their spellings (`goesBy_modifiedSlot?`,
`goesBy_savedLength?`): a hash sign or a bracket with a name behind it, names joined by single dots or
a colon, and nothing else (`Spelling`). A text is left as it is by `dropModifiers`, and holds no saved
variable, exactly if nothing is found at any place of it.
-/

namespace GrammarInduction

namespace Tracery

open Text

/-! ## Spellings -/

/-- Characters of modifiers and saved variables. -/
def isLink (c : Char) : Bool := isNameChar c || ['#', '.', '[', ':', ']'].contains c

/-- Whether every mark of punctuation has a character behind it that is neither a mark nor blank. -/
def Jointed : List Char → Prop
  | [] => True
  | c :: rest => (isOutside c = true → ∃ d ∈ rest.head?, isOutside d = false) ∧ Jointed rest

/-- What modifiers and saved variables look like. -/
structure Spelling (cs : List Char) : Prop where
  begins : ∃ c d rest, cs = c :: d :: rest ∧ (c = '#' ∨ c = '[') ∧ isNameChar d = true
  links : ∀ c ∈ cs, isLink c = true
  jointed : Jointed cs

theorem jointed_append {cs rest : List Char} (hcs : ∀ c ∈ cs, isOutside c = false)
    (hrest : Jointed rest) : Jointed (cs ++ rest) := by
  induction cs with
  | nil => exact hrest
  | cons c cs ih =>
    rw [List.forall_mem_cons] at hcs
    exact ⟨fun hc => absurd hc (by simp [hcs.1]), ih hcs.2⟩

theorem Jointed.behind {cs rest : List Char} {c : Char} (h : Jointed (cs ++ c :: rest))
    (hc : isOutside c = true) : ∃ d ∈ rest.head?, isOutside d = false := by
  induction cs with
  | nil => exact h.1 hc
  | cons d cs ih => exact ih h.2

theorem isLink_of_isNameChar {c : Char} (h : isNameChar c = true) : isLink c = true := by
  simp [isLink, h]

/-! ## Modifiers -/

/-- A name with modifiers goes on with a dot, unless there is one right before it, or with a character
of a name. -/
theorem isDotted_cons_iff {afterDot : Bool} {c : Char} {path : List Char} :
    isDotted afterDot (c :: path) = true ↔
      c = '.' ∧ afterDot = false ∧ isDotted true path = true ∨
        isNameChar c = true ∧ isDotted false path = true := by
  rw [isDotted]
  split
  next hdot =>
    subst hdot
    have hchar : isNameChar '.' = false := by decide
    simp [hchar]
  next hdot => simp [hdot]

/-- The dots in a name with modifiers have names behind them. -/
theorem jointed_of_isDotted {afterDot : Bool} {path : List Char}
    (h : isDotted afterDot path = true) : Jointed (path ++ ['#']) := by
  induction path generalizing afterDot with
  | nil => exact ⟨fun hc => absurd hc (by decide), trivial⟩
  | cons c path ih =>
    rcases isDotted_cons_iff.1 h with ⟨-, -, hpath⟩ | ⟨hc, hpath⟩
    · refine ⟨fun _ => ?_, ih hpath⟩
      -- A dot at the end is not allowed, and neither is a dot behind another one.
      cases path with
      | nil => cases hpath
      | cons d path =>
        rcases isDotted_cons_iff.1 hpath with ⟨-, hafter, -⟩ | ⟨hd, -⟩
        · cases hafter
        · exact ⟨d, rfl, isOutside_of_isNameChar hd⟩
    · exact ⟨fun houtside => absurd houtside (by simp [isOutside_of_isNameChar hc]), ih hpath⟩

/-- A name with modifiers between hash signs is found whatever follows. -/
theorem modifiedSlot?_append {path : List Char} (hchars : ∀ c ∈ path, isDottedChar c = true)
    (hdot : path.contains '.' = true) (hpath : isDotted true path = true) (rest : List Char) :
    modifiedSlot? ('#' :: (path ++ '#' :: rest)) =
      some (path.takeWhile isNameChar, path.length + 2) := by
  have hhash : isDottedChar '#' = false := by decide
  obtain ⟨htake, hdrop⟩ := takeWhile_append_of_forall hchars hhash rest
  rw [modifiedSlot?, htake, hdrop, if_pos ⟨rfl, hdot, hpath, rfl⟩]

theorem isDottedChar_of_isName {name : List Char} (hname : IsName name) :
    ∀ c ∈ name, isDottedChar c = true := fun c hc => by
  rw [isDottedChar, hname.2 c hc, Bool.true_or]

/-- A slot without modifiers is not found. -/
theorem modifiedSlot?_name {name : List Char} (hname : IsName name) (rest : List Char) :
    modifiedSlot? ('#' :: (name ++ '#' :: rest)) = none := by
  have hhash : isDottedChar '#' = false := by decide
  obtain ⟨htake, -⟩ := takeWhile_append_of_forall (isDottedChar_of_isName hname) hhash rest
  have hdot : '.' ∉ name := fun hmem => by cases hname.2 '.' hmem
  simp [modifiedSlot?, htake, hdot]

theorem modifiedSlot?_eq_some {text : List Char} {found : List Char × Nat}
    (h : modifiedSlot? text = some found) : ∃ path rest,
      text = '#' :: (path ++ '#' :: rest) ∧ (∀ c ∈ path, isDottedChar c = true) ∧
        path.contains '.' = true ∧ isDotted true path = true ∧
        found = (path.takeWhile isNameChar, path.length + 2) := by
  cases text with
  | nil => cases h
  | cons c text =>
    rw [modifiedSlot?] at h
    split at h
    next hcond =>
      obtain ⟨rfl, hdot, hpath, hhash⟩ := hcond
      obtain ⟨rest, hrest⟩ := List.head?_eq_some_iff.1 hhash
      refine ⟨text.takeWhile isDottedChar, rest, ?_, fun c hc => List.mem_takeWhile_imp hc, hdot,
        hpath, (Option.some.inj h).symm⟩
      rw [← hrest, List.takeWhile_append_dropWhile]
    · cases h

theorem spelling_modified {path : List Char} (hchars : ∀ c ∈ path, isDottedChar c = true)
    (hpath : isDotted true path = true) : Spelling ('#' :: (path ++ ['#'])) := by
  refine ⟨?_, ?_, fun hc => absurd hc (by decide), jointed_of_isDotted hpath⟩
  · cases path with
    | nil => cases hpath
    | cons d path =>
      rcases isDotted_cons_iff.1 hpath with ⟨-, hafter, -⟩ | ⟨hd, -⟩
      · cases hafter
      · exact ⟨'#', d, path ++ ['#'], rfl, .inl rfl, hd⟩
  · have hlink : ∀ c ∈ path, isLink c = true := by
      intro c hc
      have hdotted := hchars c hc
      rw [isDottedChar, Bool.or_eq_true, beq_iff_eq] at hdotted
      obtain hname | rfl := hdotted
      · exact isLink_of_isNameChar hname
      · decide
    have hhash : isLink '#' = true := by decide
    simpa [hhash, or_imp, forall_and] using hlink

/-- Modifiers are found by their spelling. -/
theorem goesBy_modifiedSlot? : GoesBy modifiedSlot? Spelling := by
  intro text found hfound
  obtain ⟨path, rest, rfl, hchars, hdot, hpath, rfl⟩ := modifiedSlot?_eq_some hfound
  refine ⟨'#' :: (path ++ ['#']), spelling_modified hchars hpath, ⟨rest, by simp⟩, fun rest => ?_⟩
  rw [List.cons_append, List.append_assoc, List.singleton_append]
  exact modifiedSlot?_append hchars hdot hpath rest

/-! ## Saved variables -/

/-- The values that a variable can be given: a name, perhaps between hash signs. -/
def IsValue (value : List Char) : Prop :=
  IsName value ∨ ∃ name, IsName name ∧ value = '#' :: (name ++ ['#'])

theorem IsValue.inside {value : List Char} (h : IsValue value) :
    ∀ c ∈ value, isOutside c = false ∧ isLink c = true := by
  have hname {name : List Char} (h : IsName name) :
      ∀ c ∈ name, isOutside c = false ∧ isLink c = true :=
    fun c hc => ⟨isOutside_of_isNameChar (h.2 c hc), isLink_of_isNameChar (h.2 c hc)⟩
  have hhash : isOutside '#' = false ∧ isLink '#' = true := by decide
  obtain h | ⟨name, h, rfl⟩ := h
  · exact hname h
  · refine List.forall_mem_cons.2 ⟨hhash, List.forall_mem_append.2 ⟨hname h, ?_⟩⟩
    exact List.forall_mem_singleton.2 hhash

theorem valueLength?_append {value : List Char} (h : IsValue value) (rest : List Char) :
    valueLength? (value ++ ']' :: rest) = some value.length := by
  have hbracket : isNameChar ']' = false := by decide
  have hhash : isNameChar '#' = false := by decide
  obtain hname | ⟨name, hname, rfl⟩ := h
  · obtain ⟨c, cs, rfl⟩ := List.exists_cons_of_ne_nil hname.1
    have hne : c ≠ '#' := by
      rintro rfl
      simp [hname.2 '#' List.mem_cons_self] at hhash
    have hfound := name?_append hname hbracket rest
    rw [List.cons_append] at hfound ⊢
    simp [valueLength?, hne, hfound]
  · rw [List.cons_append, List.append_assoc, valueLength?, List.singleton_append,
      name?_append hname hhash]
    simp

theorem valueLength?_eq_some {text : List Char} {n : Nat} (h : valueLength? text = some n) :
    ∃ value rest, text = value ++ ']' :: rest ∧ IsValue value ∧ n = value.length := by
  unfold valueLength? at h
  split at h
  · split at h
    next name rest hname =>
      obtain ⟨hIs, rfl⟩ := name?_eq_some hname
      exact ⟨'#' :: (name ++ ['#']), rest, by simp, .inr ⟨name, hIs, rfl⟩,
        by simpa using (Option.some.inj h).symm⟩
    · cases h
  · split at h
    next name rest hname =>
      obtain ⟨hIs, rfl⟩ := name?_eq_some hname
      exact ⟨name, rest, rfl, .inl hIs, (Option.some.inj h).symm⟩
    · cases h

/-- A saved variable is found whatever follows. -/
theorem savedLength?_append {name value : List Char} (hname : IsName name) (hvalue : IsValue value)
    (rest : List Char) : savedLength? ('[' :: (name ++ ':' :: (value ++ ']' :: rest))) =
      some (name.length + value.length + 3) := by
  have hcolon : isNameChar ':' = false := by decide
  rw [savedLength?, name?_append hname hcolon]
  simp [valueLength?_append hvalue]

theorem savedLength?_eq_some {text : List Char} {n : Nat} (h : savedLength? text = some n) :
    ∃ name value rest, text = '[' :: (name ++ ':' :: (value ++ ']' :: rest)) ∧ IsName name ∧
      IsValue value ∧ n = name.length + value.length + 3 := by
  unfold savedLength? at h
  split at h
  · split at h
    next name after hname =>
      obtain ⟨hIs, rfl⟩ := name?_eq_some hname
      obtain ⟨m, hm, rfl⟩ := Option.map_eq_some_iff.1 h
      obtain ⟨value, rest, rfl, hvalue, rfl⟩ := valueLength?_eq_some hm
      exact ⟨name, value, rest, rfl, hIs, hvalue, rfl⟩
    · cases h
  · cases h

theorem spelling_saved {name value : List Char} (hname : IsName name) (hvalue : IsValue value) :
    Spelling ('[' :: (name ++ ':' :: (value ++ [']']))) := by
  have hinside := (IsValue.inside (.inl hname) : ∀ c ∈ name, _)
  refine ⟨?_, ?_, fun hc => absurd hc (by decide), ?_⟩
  · obtain ⟨d, rest, rfl⟩ := List.exists_cons_of_ne_nil hname.1
    exact ⟨'[', d, _, rfl, .inr rfl, hname.2 d List.mem_cons_self⟩
  · have hmarks : isLink '[' = true ∧ isLink ':' = true ∧ isLink ']' = true := by decide
    simp only [List.forall_mem_cons, List.forall_mem_append]
    exact ⟨hmarks.1, fun c hc => (hinside c hc).2, hmarks.2.1, fun c hc => (hvalue.inside c hc).2,
      hmarks.2.2, fun c hc => absurd hc List.not_mem_nil⟩
  · refine jointed_append (fun c hc => (hinside c hc).1) ⟨fun _ => ?_, ?_⟩
    · -- The value behind the colon begins with a character that is not a mark.
      have hne : value ≠ [] := by
        obtain h | ⟨name, -, rfl⟩ := hvalue
        · exact h.1
        · exact List.cons_ne_nil _ _
      obtain ⟨d, rest, rfl⟩ := List.exists_cons_of_ne_nil hne
      exact ⟨d, rfl, (hvalue.inside d List.mem_cons_self).1⟩
    · refine jointed_append (fun c hc => (hvalue.inside c hc).1) ⟨fun hc => absurd hc ?_, trivial⟩
      decide

/-- Saved variables are found by their spelling. -/
theorem goesBy_savedLength? : GoesBy savedLength? Spelling := by
  intro text found hfound
  obtain ⟨name, value, rest, rfl, hname, hvalue, rfl⟩ := savedLength?_eq_some hfound
  refine ⟨_, spelling_saved hname hvalue, ⟨rest, by simp⟩, fun rest => ?_⟩
  simpa using savedLength?_append hname hvalue rest

/-! ## Texts in which nothing is found -/

/-- A slot is shorter without its modifiers, and not longer than the text. -/
theorem length_of_modifiedSlot? {text name : List Char} {n : Nat}
    (h : modifiedSlot? text = some (name, n)) : name.length + 2 < n ∧ n ≤ text.length := by
  obtain ⟨path, rest, rfl, -, hdot, -, hfound⟩ := modifiedSlot?_eq_some h
  obtain ⟨rfl, rfl⟩ := Prod.mk.inj hfound
  have hshort : (path.takeWhile isNameChar).length < path.length := by
    have hfront : path.takeWhile isNameChar <+: path := List.takeWhile_prefix isNameChar
    refine lt_of_le_of_ne hfront.length_le fun heq => ?_
    have hall := List.takeWhile_eq_self_iff.1 (hfront.eq_of_length heq)
    have hname := hall '.' (by simpa using hdot)
    cases hname
  simp
  omega

theorem length_dropModifiersFrom_le (skip : Nat) (text : List Char) :
    (dropModifiersFrom skip text).length ≤ text.length - skip := by
  induction text generalizing skip with
  | nil => cases skip <;> simp [dropModifiersFrom]
  | cons c text ih =>
    cases skip with
    | succ skip => simpa [dropModifiersFrom] using ih skip
    | zero =>
      rw [dropModifiersFrom]
      split
      next name n hfound =>
        have hlength := length_of_modifiedSlot? hfound
        have hrest := ih (n - 1)
        simp at hlength ⊢
        omega
      · simpa using ih 0

/-- Nothing is dropped exactly if no slot has modifiers. -/
theorem dropModifiersFrom_eq_self_iff {text : List Char} :
    dropModifiersFrom 0 text = text ↔ Lacks modifiedSlot? text := by
  induction text with
  | nil => exact ⟨fun _ => clear_nil [], fun _ => rfl⟩
  | cons c text ih =>
    rw [Lacks, clear_cons_iff, List.append_nil, ← Lacks, ← ih, dropModifiersFrom]
    split
    next name n hfound =>
      have hlength := length_of_modifiedSlot? hfound
      have hrest := length_dropModifiersFrom_le (n - 1) text
      refine ⟨fun heq => ?_, fun h => absurd h.1 (by simp [hfound])⟩
      have hshorter := congrArg List.length heq
      simp at hshorter hlength
      omega
    next hnone => simp [hnone]

theorem findSaved?_eq_none_iff {text : List Char} :
    findSaved? text = none ↔ Lacks savedLength? text := by
  induction text with
  | nil => exact ⟨fun _ => clear_nil [], fun _ => rfl⟩
  | cons c text ih =>
    rw [Lacks, clear_cons_iff, List.append_nil, ← Lacks, ← ih, findSaved?]
    split
    next length hfound => simp [hfound]
    next hnone => simp [hnone]

end Tracery

end GrammarInduction
