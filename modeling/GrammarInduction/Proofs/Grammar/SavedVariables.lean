import GrammarInduction.Proofs.Grammar.Modifiers
import GrammarInduction.Proofs.Outcome

/-!
# Which saved variables are rejected

A Tracery text is searched for saved variables after the modifiers of its slots have been dropped. The
search recognises an *action* (`IsAction`): a name is given another name or a slot, which may have
modifiers. It finds the first action of the text as it was written, without its modifiers
(`findSaved?_dropModifiersFrom`), for dropping modifiers leaves no hash sign out and so neither makes an
action nor breaks one.

A text with an action is always rejected, and no other text is (`rejects_saved_iff`): a variable that is
given several words is read as literal text (`saved_words_become_text`).
-/

namespace GrammarInduction

namespace Tracery

open Text

variable {text rest action first name value path : List Char} {modifiers : List (List Char)}

/-! ## Names with modifiers -/

/-- A name with names of modifiers behind it. -/
def dotted (name : List Char) (modifiers : List (List Char)) : List Char :=
  name ++ modifiers.flatMap ('.' :: ·)

theorem isDotted_name {afterDot : Bool} (hname : IsName name) (rest : List Char) :
    isDotted afterDot (name ++ rest) = isDotted false rest := by
  obtain ⟨hne, hchars⟩ := hname
  induction name generalizing afterDot with
  | nil => exact absurd rfl hne
  | cons c name ih =>
    obtain ⟨hc, hchars⟩ := List.forall_mem_cons.1 hchars
    have hdot : c ≠ '.' := by
      rintro rfl
      cases hc
    rw [List.cons_append, isDotted, if_neg hdot, hc, Bool.true_and]
    cases name with
    | nil => rfl
    | cons d name => exact ih (List.cons_ne_nil _ _) hchars

theorem isDotted_dotted (hname : IsName name) (hmodifiers : ∀ m ∈ modifiers, IsName m) :
    isDotted true (dotted name modifiers) = true := by
  rw [dotted, isDotted_name hname]
  induction modifiers with
  | nil => rfl
  | cons m modifiers ih =>
    obtain ⟨hm, hmodifiers⟩ := List.forall_mem_cons.1 hmodifiers
    rw [List.flatMap_cons, List.cons_append, isDotted, if_pos rfl, isDotted_name hm, ih hmodifiers]
    rfl

theorem dotted_of_isDotted {afterDot : Bool} (h : isDotted afterDot path = true) :
    ∃ name modifiers, (∀ c ∈ name, isNameChar c = true) ∧ (afterDot = true → name ≠ []) ∧
      (∀ m ∈ modifiers, IsName m) ∧ path = dotted name modifiers := by
  induction path generalizing afterDot with
  | nil =>
    refine ⟨[], [], nofun, ?_, nofun, rfl⟩
    rintro rfl
    cases h
  | cons c path ih =>
    rcases isDotted_cons_iff.1 h with ⟨rfl, hafter, hpath⟩ | ⟨hc, hpath⟩
    · obtain ⟨name, modifiers, hname, hbegins, hmodifiers, rfl⟩ := ih hpath
      refine ⟨[], name :: modifiers, nofun, ?_, ?_, rfl⟩
      · rintro rfl
        cases hafter
      · exact List.forall_mem_cons.2 ⟨⟨hbegins rfl, hname⟩, hmodifiers⟩
    · obtain ⟨name, modifiers, hname, -, hmodifiers, rfl⟩ := ih hpath
      exact ⟨c :: name, modifiers, List.forall_mem_cons.2 ⟨hc, hname⟩, fun _ => List.cons_ne_nil _ _,
        hmodifiers, rfl⟩

theorem isDottedChar_of_mem_dotted (hname : IsName name) (hmodifiers : ∀ m ∈ modifiers, IsName m) :
    ∀ c ∈ dotted name modifiers, isDottedChar c = true := by
  refine List.forall_mem_append.2 ⟨isDottedChar_of_isName hname, fun c hc => ?_⟩
  obtain ⟨m, hm, hc⟩ := List.mem_flatMap.1 hc
  obtain rfl | hc := List.mem_cons.1 hc
  · decide
  · exact isDottedChar_of_isName (hmodifiers m hm) c hc

theorem takeWhile_dotted (hname : IsName name) (modifiers : List (List Char)) :
    (dotted name modifiers).takeWhile isNameChar = name := by
  have hdot : isNameChar '.' = false := by decide
  cases modifiers with
  | nil => rw [dotted, List.flatMap_nil, List.append_nil, List.takeWhile_eq_self_iff.2 hname.2]
  | cons m modifiers => exact (takeWhile_append_of_forall hname.2 hdot _).1

/-! ## Dropping modifiers -/

theorem dropModifiersFrom_eq_drop (skip : Nat) (text : List Char) :
    dropModifiersFrom skip text = dropModifiersFrom 0 (text.drop skip) := by
  induction text generalizing skip with
  | nil => cases skip <;> simp [dropModifiersFrom]
  | cons c text ih =>
    cases skip with
    | zero => rfl
    | succ skip => exact ih skip

theorem dropModifiersFrom_none {c : Char} (h : modifiedSlot? (c :: rest) = none) :
    dropModifiersFrom 0 (c :: rest) = c :: dropModifiersFrom 0 rest := by
  rw [dropModifiersFrom, h]

/-- A slot loses its modifiers, and what is behind it is gone through from its end. -/
theorem dropModifiersFrom_slot (hname : IsName name) (hmodifiers : ∀ m ∈ modifiers, IsName m)
    (hne : modifiers ≠ []) (rest : List Char) :
    dropModifiersFrom 0 ('#' :: (dotted name modifiers ++ '#' :: rest)) =
      '#' :: (name ++ '#' :: dropModifiersFrom 0 rest) := by
  have hdot : (dotted name modifiers).contains '.' = true := by
    obtain ⟨m, modifiers, rfl⟩ := List.exists_cons_of_ne_nil hne
    simp [dotted]
  have hfound := modifiedSlot?_append (isDottedChar_of_mem_dotted hname hmodifiers) hdot
    (isDotted_dotted hname hmodifiers) rest
  have hbehind : (dotted name modifiers ++ '#' :: rest).drop ((dotted name modifiers).length + 1) =
      rest := by simp
  rw [dropModifiersFrom, hfound, takeWhile_dotted hname]
  change '#' :: (name ++ '#' :: dropModifiersFrom ((dotted name modifiers).length + 1) _) = _
  rw [dropModifiersFrom_eq_drop (_ + 1), hbehind]

/-- One step of dropping modifiers. -/
theorem dropModifiersFrom_cases (c : Char) (rest : List Char) :
    dropModifiersFrom 0 (c :: rest) = c :: dropModifiersFrom 0 rest ∨
      ∃ name modifiers after, c :: rest = '#' :: (dotted name modifiers ++ '#' :: after) ∧ IsName name ∧
        (∀ m ∈ modifiers, IsName m) ∧ modifiers ≠ [] ∧
        dropModifiersFrom 0 (c :: rest) = '#' :: (name ++ '#' :: dropModifiersFrom 0 after) := by
  cases h : modifiedSlot? (c :: rest) with
  | none => exact .inl (dropModifiersFrom_none h)
  | some found =>
    obtain ⟨path, after, heq, -, hdot, hpath, -⟩ := modifiedSlot?_eq_some h
    obtain ⟨name, modifiers, hchars, hbegins, hmodifiers, rfl⟩ := dotted_of_isDotted hpath
    have hname : IsName name := ⟨hbegins rfl, hchars⟩
    have hne : modifiers ≠ [] := by
      rintro rfl
      rw [dotted, List.flatMap_nil, List.append_nil, List.contains_iff_mem] at hdot
      cases hchars '.' hdot
    refine .inr ⟨name, modifiers, after, heq, hname, hmodifiers, hne, ?_⟩
    rw [heq, dropModifiersFrom_slot hname hmodifiers hne]

/-- What is no hash sign stays where it is. -/
theorem dropModifiersFrom_append {cs : List Char} (h : ∀ c ∈ cs, c ≠ '#') (rest : List Char) :
    dropModifiersFrom 0 (cs ++ rest) = cs ++ dropModifiersFrom 0 rest := by
  induction cs with
  | nil => rfl
  | cons c cs ih =>
    obtain ⟨hc, hcs⟩ := List.forall_mem_cons.1 h
    rw [List.cons_append, List.cons_append, ← ih hcs]
    refine dropModifiersFrom_none ?_
    rw [modifiedSlot?, if_neg fun hslot => hc hslot.1]

/-- Characters between which there is no hash sign have been next to each other before. -/
theorem eq_append_of_dropModifiersFrom {cs left : List Char} (h : ∀ c ∈ cs, c ≠ '#')
    (heq : dropModifiersFrom 0 text = cs ++ left) :
    ∃ rest, text = cs ++ rest ∧ dropModifiersFrom 0 rest = left := by
  induction cs generalizing text with
  | nil => exact ⟨text, rfl, heq⟩
  | cons c cs ih =>
    obtain ⟨hc, hcs⟩ := List.forall_mem_cons.1 h
    cases text with
    | nil => cases heq
    | cons d text =>
      obtain hcopied | ⟨_, _, _, -, -, -, -, hslot⟩ := dropModifiersFrom_cases d text
      · rw [hcopied, List.cons_append] at heq
        obtain ⟨rfl, htail⟩ := List.cons_eq_cons.1 heq
        obtain ⟨rest, rfl, hrest⟩ := ih hcs htail
        exact ⟨rest, rfl, hrest⟩
      · rw [hslot] at heq
        exact absurd (List.cons_eq_cons.1 heq).1.symm hc

theorem ne_hash_of_mem (hname : IsName name) : ∀ c ∈ name, c ≠ '#' := by
  rintro c hc rfl
  cases hname.2 '#' hc

/-- A slot before a bracket loses its modifiers, if it has any. -/
theorem dropModifiersFrom_slot_bracket (hname : IsName name) (hmodifiers : ∀ m ∈ modifiers, IsName m)
    (rest : List Char) : dropModifiersFrom 0 ('#' :: (dotted name modifiers ++ '#' :: ']' :: rest)) =
      '#' :: (name ++ '#' :: ']' :: dropModifiersFrom 0 rest) := by
  have hbracket : ∀ c ∈ [']'], c ≠ '#' := List.forall_mem_singleton.2 (by decide)
  have hrest := dropModifiersFrom_append hbracket rest
  by_cases hne : modifiers = []
  · have hend : modifiedSlot? ('#' :: ']' :: rest) = none := by
      have hdotted : isDottedChar ']' = false := by decide
      simp [modifiedSlot?, hdotted]
    subst hne
    rw [dotted, List.flatMap_nil, List.append_nil, dropModifiersFrom_none (modifiedSlot?_name hname _),
      dropModifiersFrom_append (ne_hash_of_mem hname), dropModifiersFrom_none hend]
    exact congrArg (fun cs => '#' :: (name ++ '#' :: cs)) hrest
  · rw [dropModifiersFrom_slot hname hmodifiers hne]
    exact congrArg (fun cs => '#' :: (name ++ '#' :: cs)) hrest

theorem ne_hash_of_mem_front (hname : IsName name) : ∀ c ∈ '[' :: (name ++ [':']), c ≠ '#' := by
  refine List.forall_mem_cons.2 ⟨by decide, List.forall_mem_append.2 ⟨ne_hash_of_mem hname, ?_⟩⟩
  exact List.forall_mem_singleton.2 (by decide)

theorem ne_hash_of_mem_value (hvalue : IsName value) : ∀ c ∈ value ++ [']'], c ≠ '#' :=
  List.forall_mem_append.2 ⟨ne_hash_of_mem hvalue, List.forall_mem_singleton.2 (by decide)⟩

/-- A name ends before the first other character. -/
theorem eq_of_name_append {name' left right : List Char} (hname : IsName name) (hname' : IsName name')
    (h : name ++ '#' :: left = name' ++ '#' :: right) : name = name' ∧ left = right := by
  have hhash : isNameChar '#' = false := by decide
  have hfound := name?_append hname hhash left
  rw [h, name?_append hname' hhash] at hfound
  simpa [eq_comm] using hfound

/-- A hash sign before a bracket has been there before, for a slot has a name. -/
theorem eq_end_of_dropModifiersFrom {left : List Char}
    (heq : dropModifiersFrom 0 text = '#' :: ']' :: left) :
    ∃ rest, text = '#' :: ']' :: rest ∧ dropModifiersFrom 0 rest = left := by
  have hbracket : ∀ c ∈ [']'], c ≠ '#' := List.forall_mem_singleton.2 (by decide)
  cases text with
  | nil => cases heq
  | cons c text =>
    obtain hcopied | ⟨name, _, _, -, hname, -, -, hslot⟩ := dropModifiersFrom_cases c text
    · rw [hcopied] at heq
      obtain ⟨rfl, htail⟩ := List.cons_eq_cons.1 heq
      obtain ⟨rest, rfl, hrest⟩ := eq_append_of_dropModifiersFrom hbracket htail
      exact ⟨rest, rfl, hrest⟩
    · rw [hslot] at heq
      obtain ⟨d, name, rfl⟩ := List.exists_cons_of_ne_nil hname.1
      obtain rfl : d = ']' := (List.cons_eq_cons.1 (List.cons_eq_cons.1 heq).2).1
      cases hname.2 ']' List.mem_cons_self

/-- A slot before a bracket has been a slot, perhaps with modifiers. -/
theorem eq_slot_of_dropModifiersFrom {left : List Char} (hname : IsName name)
    (heq : dropModifiersFrom 0 text = '#' :: (name ++ '#' :: ']' :: left)) :
    ∃ modifiers rest, (∀ m ∈ modifiers, IsName m) ∧
      text = '#' :: (dotted name modifiers ++ '#' :: ']' :: rest) ∧ dropModifiersFrom 0 rest = left := by
  have hbracket : ∀ c ∈ [']'], c ≠ '#' := List.forall_mem_singleton.2 (by decide)
  cases text with
  | nil => cases heq
  | cons c text =>
    obtain hcopied | ⟨name', modifiers, after, htext, hname', hmodifiers, -, hslot⟩ :=
      dropModifiersFrom_cases c text
    · rw [hcopied] at heq
      obtain ⟨rfl, htail⟩ := List.cons_eq_cons.1 heq
      obtain ⟨behind, rfl, hbehind⟩ := eq_append_of_dropModifiersFrom (ne_hash_of_mem hname) htail
      obtain ⟨rest, rfl, hrest⟩ := eq_end_of_dropModifiersFrom hbehind
      exact ⟨[], rest, nofun, by simp [dotted], hrest⟩
    · rw [hslot] at heq
      obtain ⟨rfl, hafter⟩ := eq_of_name_append hname' hname (List.cons_eq_cons.1 heq).2
      obtain ⟨rest, rfl, hrest⟩ := eq_append_of_dropModifiersFrom hbracket hafter
      exact ⟨modifiers, rest, hmodifiers, htext, hrest⟩

/-! ## Actions -/

/-- The actions that are recognised: a name is given another one or a slot, perhaps with modifiers. -/
inductive IsAction : List Char → Prop
  | name {name value : List Char} (hname : IsName name) (hvalue : IsName value) :
      IsAction ('[' :: (name ++ ':' :: (value ++ [']'])))
  | slot {name value : List Char} {modifiers : List (List Char)} (hname : IsName name)
      (hvalue : IsName value) (hmodifiers : ∀ m ∈ modifiers, IsName m) :
      IsAction ('[' :: (name ++ ':' :: '#' :: (dotted value modifiers ++ ['#', ']'])))

/-- The first action in a text. -/
inductive FirstAction : List Char → List Char → Prop
  | here {action : List Char} (h : IsAction action) (rest : List Char) :
      FirstAction (action ++ rest) action
  | later {c : Char} {rest action : List Char} (hnot : ∀ a, IsAction a → ¬ a <+: c :: rest)
      (h : FirstAction rest action) : FirstAction (c :: rest) action

theorem exists_firstAction_iff : (∃ a, FirstAction text a) ↔ ∃ a, IsAction a ∧ a <:+: text := by
  constructor
  · rintro ⟨a, h⟩
    induction h with
    | here h rest => exact ⟨_, h, (List.prefix_append _ rest).isInfix⟩
    | later _ _ ih =>
      obtain ⟨a, ha, hinfix⟩ := ih
      exact ⟨a, ha, hinfix.trans (List.suffix_cons _ _).isInfix⟩
  · rintro ⟨a, ha, hinfix⟩
    induction text with
    | nil =>
      obtain rfl := List.infix_nil.1 hinfix
      cases ha
    | cons c text ih =>
      by_cases hfront : ∃ a, IsAction a ∧ a <+: c :: text
      · obtain ⟨first, hfirst, rest, heq⟩ := hfront
        exact ⟨first, heq ▸ .here hfirst rest⟩
      · have hnot : ∀ a, IsAction a → ¬ a <+: c :: text := fun a ha h => hfront ⟨a, ha, h⟩
        obtain hprefix | hinfix := List.infix_cons_iff.1 hinfix
        · exact absurd hprefix (hnot a ha)
        · obtain ⟨first, hfirst⟩ := ih hinfix
          exact ⟨first, .later hnot hfirst⟩

/-! ## The search -/

/-- An action without the modifiers in it is a saved variable, whatever comes behind it. -/
theorem dropModifiersFrom_action (h : IsAction action) : ∃ name value, IsName name ∧ IsValue value ∧
    ∀ rest, dropModifiersFrom 0 (action ++ rest) =
      '[' :: (name ++ ':' :: (value ++ ']' :: dropModifiersFrom 0 rest)) := by
  cases h with
  | @name name value hname hvalue =>
    refine ⟨name, value, hname, .inl hvalue, fun rest => ?_⟩
    have hdropped := dropModifiersFrom_append
      (List.forall_mem_append.2 ⟨ne_hash_of_mem_front hname, ne_hash_of_mem_value hvalue⟩) rest
    simpa using hdropped
  | @slot name value modifiers hname hvalue hmodifiers =>
    refine ⟨name, _, hname, .inr ⟨value, hvalue, rfl⟩, fun rest => ?_⟩
    have hdropped := dropModifiersFrom_append (ne_hash_of_mem_front hname)
      ('#' :: (dotted value modifiers ++ '#' :: ']' :: rest))
    rw [dropModifiersFrom_slot_bracket hvalue hmodifiers] at hdropped
    simpa using hdropped

/-- A saved variable has been an action. -/
theorem exists_action_of_savedLength? {n : Nat}
    (h : savedLength? (dropModifiersFrom 0 text) = some n) : ∃ a, IsAction a ∧ a <+: text := by
  obtain ⟨name, value, left, heq, hname, hvalue, -⟩ := savedLength?_eq_some h
  have hfront : dropModifiersFrom 0 text = '[' :: (name ++ [':']) ++ (value ++ ']' :: left) := by
    simpa using heq
  obtain ⟨behind, rfl, hbehind⟩ := eq_append_of_dropModifiersFrom (ne_hash_of_mem_front hname) hfront
  obtain hvalue | ⟨slot, hslot, rfl⟩ := hvalue
  · have hname' : dropModifiersFrom 0 behind = value ++ [']'] ++ left := by simpa using hbehind
    obtain ⟨rest, rfl, -⟩ := eq_append_of_dropModifiersFrom (ne_hash_of_mem_value hvalue) hname'
    exact ⟨_, .name hname hvalue, rest, by simp⟩
  · have hslot' : dropModifiersFrom 0 behind = '#' :: (slot ++ '#' :: ']' :: left) := by
      simpa using hbehind
    obtain ⟨modifiers, rest, hmodifiers, rfl, -⟩ := eq_slot_of_dropModifiersFrom hslot hslot'
    exact ⟨_, .slot hname hslot hmodifiers, rest, by simp⟩

theorem IsAction.exists_cons (h : IsAction action) : ∃ tail, action = '[' :: tail := by
  cases h <;> exact ⟨_, rfl⟩

/-- No action begins with a character that is no bracket. -/
theorem not_isAction_front {c : Char} (hc : c ≠ '[') (rest : List Char) :
    ∀ a, IsAction a → ¬ a <+: c :: rest := by
  intro a ha hprefix
  obtain ⟨tail, rfl⟩ := ha.exists_cons
  exact hc (List.cons_prefix_cons.1 hprefix).1.symm

theorem ne_bracket_of_mem_slot (hname : IsName name) (hmodifiers : ∀ m ∈ modifiers, IsName m) :
    ∀ c ∈ '#' :: (dotted name modifiers ++ ['#']), c ≠ '[' := by
  refine List.forall_mem_cons.2 ⟨by decide, List.forall_mem_append.2 ⟨?_, ?_⟩⟩
  · rintro c hc rfl
    cases isDottedChar_of_mem_dotted hname hmodifiers '[' hc
  · exact List.forall_mem_singleton.2 (by decide)

theorem firstAction_cons_iff {c : Char} (hnot : ∀ a, IsAction a → ¬ a <+: c :: rest) :
    FirstAction (c :: rest) action ↔ FirstAction rest action := by
  refine ⟨fun h => ?_, .later hnot⟩
  generalize htext : c :: rest = text at h
  cases h with
  | here h behind => exact absurd ⟨behind, htext.symm⟩ (hnot action h)
  | later _ h =>
    obtain ⟨-, rfl⟩ := List.cons_eq_cons.1 htext
    exact h

/-- If an action stands at the front, the first one does. -/
theorem FirstAction.prefix_of (h : FirstAction text action) (hfront : ∃ a, IsAction a ∧ a <+: text) :
    IsAction action ∧ ∃ rest, action ++ rest = text := by
  cases h with
  | here h rest => exact ⟨h, rest, rfl⟩
  | later hnot _ =>
    obtain ⟨a, ha, hprefix⟩ := hfront
    exact absurd hprefix (hnot a ha)

theorem firstAction_append_iff {cs : List Char} (h : ∀ c ∈ cs, c ≠ '[') :
    FirstAction (cs ++ rest) action ↔ FirstAction rest action := by
  induction cs with
  | nil => exact Iff.rfl
  | cons c cs ih =>
    obtain ⟨hc, hcs⟩ := List.forall_mem_cons.1 h
    rw [List.cons_append, firstAction_cons_iff (not_isAction_front hc _), ih hcs]

/-- No action begins in a slot. -/
theorem firstAction_slot_iff (hname : IsName name) (hmodifiers : ∀ m ∈ modifiers, IsName m) :
    FirstAction ('#' :: (dotted name modifiers ++ '#' :: rest)) action ↔ FirstAction rest action := by
  have hbehind : FirstAction ('#' :: (dotted name modifiers ++ ['#']) ++ rest) action ↔
      FirstAction rest action := firstAction_append_iff (ne_bracket_of_mem_slot hname hmodifiers)
  simpa using hbehind

theorem findSaved?_cons {c : Char} (h : savedLength? (c :: rest) = none) :
    findSaved? (c :: rest) = findSaved? rest := by
  rw [findSaved?, h]

theorem findSaved?_append {cs : List Char} (h : ∀ c ∈ cs, c ≠ '[') (rest : List Char) :
    findSaved? (cs ++ rest) = findSaved? rest := by
  induction cs with
  | nil => rfl
  | cons c cs ih =>
    obtain ⟨hc, hcs⟩ := List.forall_mem_cons.1 h
    rw [List.cons_append, findSaved?_cons, ih hcs]
    by_contra hfound
    obtain ⟨n, hn⟩ := Option.ne_none_iff_exists'.1 hfound
    obtain ⟨_, _, _, heq, -⟩ := savedLength?_eq_some hn
    exact hc (List.cons_eq_cons.1 heq).1

theorem findSaved?_slot (hname : IsName name) (rest : List Char) :
    findSaved? ('#' :: (name ++ '#' :: rest)) = findSaved? rest := by
  have hplain : ∀ m ∈ ([] : List (List Char)), IsName m := nofun
  have hbehind := findSaved?_append (ne_bracket_of_mem_slot hname hplain) rest
  simpa [dotted] using hbehind

/-- An action at the front is found. -/
theorem findSaved?_of_action (h : IsAction action) (rest : List Char) :
    findSaved? (dropModifiersFrom 0 (action ++ rest)) = some (dropModifiersFrom 0 action) := by
  obtain ⟨name, value, hname, hvalue, hdropped⟩ := dropModifiersFrom_action h
  have hwhole := hdropped []
  rw [List.append_nil] at hwhole
  have htake : ('[' :: (name ++ ':' :: (value ++ ']' :: dropModifiersFrom 0 rest))).take
      (name.length + value.length + 3) = '[' :: (name ++ ':' :: (value ++ [']'])) := by
    have hlength : ('[' :: (name ++ ':' :: (value ++ [']']))).length =
        name.length + value.length + 3 := by
      simp
      omega
    have hsplit : '[' :: (name ++ ':' :: (value ++ ']' :: dropModifiersFrom 0 rest)) =
        '[' :: (name ++ ':' :: (value ++ [']'])) ++ dropModifiersFrom 0 rest := by simp
    rw [hsplit, List.take_left' hlength]
  rw [hdropped, hwhole, findSaved?, savedLength?_append hname hvalue]
  exact congrArg some htake

/-- Two actions at the front are the same without their modifiers, for both of them are found. -/
theorem eq_of_firstAction_append (h : FirstAction (action ++ rest) first) (haction : IsAction action) :
    dropModifiersFrom 0 action = dropModifiersFrom 0 first := by
  obtain ⟨hfirst, rest', heq⟩ := h.prefix_of ⟨action, haction, rest, rfl⟩
  have hfound := findSaved?_of_action hfirst rest'
  rw [heq, findSaved?_of_action haction] at hfound
  exact Option.some_inj.1 hfound

/-- **The search finds the first action** of the text as it was written, without its modifiers. -/
theorem findSaved?_dropModifiersFrom (text : List Char) {found : List Char} :
    findSaved? (dropModifiersFrom 0 text) = some found ↔
      ∃ action, FirstAction text action ∧ dropModifiersFrom 0 action = found := by
  induction hlength : text.length using Nat.strong_induction_on generalizing text with
  | _ n ih =>
    cases text with
    | nil =>
      refine ⟨nofun, ?_⟩
      rintro ⟨action, h, -⟩
      obtain ⟨a, ha, hinfix⟩ := exists_firstAction_iff.1 ⟨action, h⟩
      obtain rfl := List.infix_nil.1 hinfix
      cases ha
    | cons c text =>
      by_cases hfront : ∃ a, IsAction a ∧ a <+: c :: text
      · obtain ⟨a, ha, rest, heq⟩ := hfront
        rw [← heq, findSaved?_of_action ha, Option.some_inj]
        refine ⟨fun h => ⟨a, .here ha rest, h⟩, ?_⟩
        rintro ⟨first, h, rfl⟩
        exact eq_of_firstAction_append h ha
      · have hnot : ∀ a, IsAction a → ¬ a <+: c :: text := fun a ha h => hfront ⟨a, ha, h⟩
        obtain hcopied | ⟨name, modifiers, after, htext, hname, hmodifiers, -, hslot⟩ :=
          dropModifiersFrom_cases c text
        · have hnone : savedLength? (dropModifiersFrom 0 (c :: text)) = none := by
            by_contra hfound
            obtain ⟨n, hn⟩ := Option.ne_none_iff_exists'.1 hfound
            exact hfront (exists_action_of_savedLength? hn)
          rw [hcopied] at hnone ⊢
          rw [findSaved?_cons hnone, ih text.length (by simp [← hlength]) text rfl]
          simp only [firstAction_cons_iff hnot]
        · have hafter : after.length < n := by
            rw [← hlength, htext]
            simp
            omega
          rw [hslot, findSaved?_slot hname, ih after.length hafter after rfl, htext]
          simp only [firstAction_slot_iff hname hmodifiers]

theorem savedVariable?_dropModifiers {text found : String} :
    savedVariable? (dropModifiers text) = some found ↔
      ∃ action, FirstAction text.toList action ∧ found = String.ofList (dropModifiersFrom 0 action) := by
  rw [savedVariable?, dropModifiers, String.toList_ofList, Option.map_eq_some_iff]
  simp only [findSaved?_dropModifiersFrom]
  constructor
  · rintro ⟨_, ⟨action, h, rfl⟩, rfl⟩
    exact ⟨action, h, rfl⟩
  · rintro ⟨action, h, rfl⟩
    exact ⟨_, ⟨action, h, rfl⟩, rfl⟩

end Tracery

/-! ## Rejected texts -/

/-- What can be wrong with a document. -/
theorem Document.read?_error_cases {text : String} {e : Failure} (h : Document.read? text = .error e) :
    e = .malformed ∨ e = .notAnObject ∨ ∃ name, e = .badProductions name := by
  have hmembers {members : List (Option String × Json)} (h : Document.ofMembers? members = .error e) :
      ∃ name, e = .badProductions name := by
    obtain ⟨⟨name, value⟩, -, document, h⟩ := foldlM_error h
    have htexts := map_eq_error h
    unfold Document.texts? at htexts
    refine ⟨name, ?_⟩
    split at htexts
    · cases htexts
    · split at htexts <;> cases htexts
      rfl
    · cases htexts
      rfl
  unfold Document.read? at h
  split at h
  · split at h
    · exact .inr (.inr (hmembers h))
    · exact .inl (Except.error.inj h).symm
  · exact .inr (.inl (Except.error.inj h).symm)
  · split at h
    · exact .inr (.inl (Except.error.inj h).symm)
    · exact .inl (Except.error.inj h).symm
  · exact .inl (Except.error.inj h).symm

namespace Grammar

open Tracery

theorem ofTracery?_eq_savedVariable_iff {text found : String} {supply : Nat} :
    ofTracery? text supply = .error (.savedVariable found) ↔
      savedVariable? (dropModifiers text) = some found := by
  unfold ofTracery?
  dsimp only
  cases savedVariable? (dropModifiers text) with
  | some action => simp
  | none =>
    refine ⟨fun hread => ?_, nofun⟩
    rcases Document.read?_error_cases (map_eq_error hread) with h | h | ⟨_, h⟩ <;> cases h

/-- **A Tracery text is rejected for a saved variable exactly if an action is written in it.** The first
one is reported, without the modifiers in it. -/
theorem rejects_saved_iff (text : String) (supply : Nat) :
    (∀ found, ofTracery? text supply = .error (.savedVariable found) ↔
      ∃ action, FirstAction text.toList action ∧ found = dropModifiers (String.ofList action)) ∧
    ((∃ found, ofTracery? text supply = .error (.savedVariable found)) ↔
      ∃ action, IsAction action ∧ action <:+: text.toList) := by
  have hfirst (found : String) : ofTracery? text supply = .error (.savedVariable found) ↔
      ∃ action, FirstAction text.toList action ∧ found = dropModifiers (String.ofList action) := by
    rw [ofTracery?_eq_savedVariable_iff, savedVariable?_dropModifiers]
    simp only [dropModifiers, String.toList_ofList]
  refine ⟨hfirst, ?_⟩
  rw [← exists_firstAction_iff]
  simp only [hfirst]
  constructor
  · rintro ⟨_, action, h, -⟩
    exact ⟨action, h⟩
  · rintro ⟨action, h⟩
    exact ⟨_, action, h, rfl⟩

/-- A variable that is given two words. -/
def savedWords : String := "\x7b\"origin\": [\"[mood:very happy]#mood#\"]\x7d"

/-- Where a variable is given two words, the brackets become literal text. -/
theorem saved_words_become_text :
    let name := "mood".toList
    let value := "very happy".toList
    let action := '[' :: (name ++ ':' :: (value ++ [']']))
    let production := "[mood:very happy]#mood#"
    Text.IsName name ∧ value ≠ [] ∧ (∀ c ∈ value, c ≠ ']' ∧ c ≠ '"' ∧ c ≠ '\\') ∧
      action <:+: production.toList ∧ action <:+: savedWords.toList ∧
      (∃ document, Document.read? savedWords = .ok document ∧
        document.entries = [("origin", [production])]) ∧
      ∃ read, ofTracery? savedWords 0 = .ok read ∧ read.1.rules.entries =
        [(.named "origin", [⟨[.literal "[mood:very", .literal "happy]", .slot (.named "mood")]⟩])] := by
  have hname : "mood".toList.all Text.isNameChar = true := by decide
  have hvalue : "very happy".toList.all (fun c => decide (c ≠ ']' ∧ c ≠ '"' ∧ c ≠ '\\')) = true := by
    decide
  refine ⟨⟨by decide, List.all_eq_true.1 hname⟩, by decide, ?_, by decide +kernel, by decide +kernel,
    ?_, ?_⟩
  · exact fun c hc => of_decide_eq_true (List.all_eq_true.1 hvalue c hc)
  · apply exists_of_toOption
    decide +kernel
  · apply exists_of_toOption
    decide +kernel

end Grammar

end GrammarInduction
