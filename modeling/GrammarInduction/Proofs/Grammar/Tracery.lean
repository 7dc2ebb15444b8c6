import GrammarInduction.Proofs.Grammar.Exchange
import GrammarInduction.Proofs.Grammar.Modifiers

/-!
# Tracery documents read again

Modifiers and saved variables are looked for in the text of a document, before its escapes are read.
In a document that is written they do not go beyond a name or a production, for quotes, backslashes
and blanks are no part of them (`sealed_toText`), and in a production they do not go beyond a literal,
for behind a mark of punctuation that is attached comes a blank or another mark
(`lacks_joinWordsAfter`). So where the names and literals of a grammar hold none, the grammar is read
again from its Tracery document (`ofTracery?_toTracery`).

A literal can hold one, though: an escape hides it when the document is read for the first time
(`ofTracery?_toTracery_fails`).
-/

namespace GrammarInduction

namespace Tracery

open Text

/-- What the text of a document is searched for: it has the spelling of a modifier or of a saved
variable, and is not found at a slot. -/
structure Sought {α : Type} (at? : List Char → Option α) : Prop where
  goesBy : GoesBy at? Spelling
  slot : ∀ slot rest, Written .hash (.slot slot) →
    at? ((SlotStyle.hash.write (.slot slot)).toList ++ rest) = none

theorem sought_modifiedSlot? : Sought modifiedSlot? := by
  refine ⟨goesBy_modifiedSlot?, fun slot rest hslot => ?_⟩
  rw [toList_write_slot]
  cases slot with
  | anonymous id => rfl
  | named name =>
    have hnone := modifiedSlot?_name hslot rest
    simpa [pieceOf, Piece.spelling, SlotStyle.opening, SlotStyle.closing] using hnone

theorem sought_savedLength? : Sought savedLength? := by
  refine ⟨goesBy_savedLength?, fun slot rest _ => ?_⟩
  rw [toList_write_slot]
  cases slot with
  | named name => rfl
  | anonymous id =>
    have hname : IsName "SLOT".toList := by
      have hall : "SLOT".toList.all isNameChar = true := by decide
      exact ⟨by decide, List.all_eq_true.1 hall⟩
    have hfound := name?_append hname (by decide : isNameChar ']' = false) rest
    have hspelling : Piece.anonymous.spelling .hash ++ rest = '[' :: ("SLOT".toList ++ ']' :: rest) :=
      rfl
    rw [pieceOf, hspelling, savedLength?, hfound]
    simp

/-! ## Texts behind which nothing changes -/

section

variable {α : Type} {at? : List Char → Option α}

/-- Nothing is found at a place in `cs`, whatever comes after. -/
def Sealed (at? : List Char → Option α) (cs : List Char) : Prop := ∀ rest, Clear at? cs rest

theorem sealed_nil : Sealed at? [] := clear_nil

theorem Sealed.append {cs cs' : List Char} (h : Sealed at? cs) (h' : Sealed at? cs') :
    Sealed at? (cs ++ cs') :=
  fun rest => clear_append_iff.2 ⟨h (cs' ++ rest), h' rest⟩

theorem sealed_flatMap {β : Type} {bs : List β} {f : β → List Char} (h : ∀ b ∈ bs, Sealed at? (f b)) :
    Sealed at? (bs.flatMap f) := by
  induction bs with
  | nil => exact sealed_nil
  | cons b bs ih =>
    rw [List.forall_mem_cons] at h
    exact h.1.append (ih h.2)

theorem sealed_intercalate {sep : String} {items : List String} (hsep : Sealed at? sep.toList)
    (h : ∀ item ∈ items, Sealed at? item.toList) : Sealed at? (sep.intercalate items).toList := by
  rw [String.toList_intercalate]
  cases items with
  | nil => exact sealed_nil
  | cons item items =>
    rw [List.forall_mem_cons] at h
    rw [List.map_cons, Lexeme.intercalate_cons_eq, List.flatMap_map]
    exact h.1.append (sealed_flatMap fun next hnext => hsep.append (h.2 next hnext))

namespace Sought

variable (h : Sought at?)
include h

/-- Nothing begins with a character that is neither a hash sign nor a bracket. -/
theorem eq_none {c : Char} (hc : c ≠ '#' ∧ c ≠ '[') (rest : List Char) : at? (c :: rest) = none := by
  refine h.goesBy.eq_none_of_head (fun hnil => ?_) (fun s hs => ?_) rest
  · obtain ⟨c, d, rest, heq, -⟩ := hnil.begins
    cases heq
  · obtain ⟨c', d, rest, heq, hbegin, -⟩ := hs.begins
    obtain ⟨rfl, -⟩ := List.cons_eq_cons.1 heq
    exact hbegin.elim hc.1 hc.2

/-- Behind the first character has to be a name. -/
theorem eq_none_of_head? {c : Char} {rest : List Char} (hrest : ∀ d ∈ rest.head?, isNameChar d = false) :
    at? (c :: rest) = none := by
  by_contra hfound
  obtain ⟨found, hfound⟩ := Option.ne_none_iff_exists'.1 hfound
  obtain ⟨spelling, hspelling, hfront, -⟩ := h.goesBy _ _ hfound
  obtain ⟨c', d, beyond, rfl, -, hd⟩ := hspelling.begins
  obtain ⟨-, after, rfl⟩ := List.cons_prefix_cons.1 hfront
  rw [hrest d rfl] at hd
  cases hd

theorem sealed_of_forall {cs : List Char} (hcs : ∀ c ∈ cs, c ≠ '#' ∧ c ≠ '[') : Sealed at? cs :=
  clear_of_forall fun c hc => h.eq_none (hcs c hc)

theorem sealed_of_all {cs : List Char} (hcs : cs.all (fun c => c != '#' && c != '[') = true) :
    Sealed at? cs :=
  h.sealed_of_forall fun c hc => by simpa using List.all_eq_true.1 hcs c hc

/-- A bracket with no name behind it. -/
theorem sealed_pair {c d : Char} (hd : isNameChar d = false) (hd' : d ≠ '#' ∧ d ≠ '[') :
    Sealed at? [c, d] := fun rest =>
  clear_cons_iff.2 ⟨h.eq_none_of_head? (by simpa using hd),
    clear_cons_iff.2 ⟨h.eq_none hd' rest, clear_nil rest⟩⟩

/-! ## Quoted texts -/

omit h in
/-- Characters of modifiers and variables are written as they are. -/
theorem prefix_of_encoded {spelling text rest : List Char} (hlinks : ∀ c ∈ spelling, isLink c = true)
    (hfront : spelling <+: text.flatMap JsonText.encodeChar ++ '"' :: rest) : spelling <+: text := by
  induction text generalizing spelling with
  | nil =>
    cases spelling with
    | nil => exact List.nil_prefix
    | cons c spelling =>
      obtain ⟨rfl, -⟩ := List.cons_prefix_cons.1 hfront
      cases hlinks '"' List.mem_cons_self
  | cons c text ih =>
    cases spelling with
    | nil => exact List.nil_prefix
    | cons d spelling =>
      rw [List.forall_mem_cons] at hlinks
      rw [List.flatMap_cons, List.append_assoc] at hfront
      rcases JsonText.encodeChar_cases c with ⟨e, -, -, heq⟩ | ⟨-, heq⟩ | ⟨-, -, -, heq⟩
      all_goals
        rw [heq] at hfront
        obtain ⟨rfl, hrest⟩ := List.cons_prefix_cons.1 hfront
      · cases hlinks.1
      · cases hlinks.1
      · exact List.cons_prefix_cons.2 ⟨rfl, ih hlinks.2 hrest⟩

omit h in
/-- No escape has a hash sign or a bracket. -/
theorem ne_of_mem_encodeChar {c d : Char} (hescaped : JsonText.encodeChar c ≠ [c])
    (hd : d ∈ JsonText.encodeChar c) : d ≠ '#' ∧ d ≠ '[' := by
  have hdigit : ∀ n < 16, JsonText.hexDigit n ≠ '#' ∧ JsonText.hexDigit n ≠ '[' := by decide
  rcases JsonText.encodeChar_cases c with ⟨e, -, he, heq⟩ | ⟨hcontrol, heq⟩ | ⟨-, -, -, heq⟩
  · rw [heq, List.mem_cons, List.mem_singleton] at hd
    obtain rfl | rfl := hd
    · decide
    · constructor <;> rintro rfl <;> cases he
  · rw [heq] at hd
    simp only [List.mem_cons, List.not_mem_nil, or_false] at hd
    rcases hd with rfl | rfl | rfl | rfl | rfl | rfl
    · decide
    · decide
    · decide
    · decide
    · exact hdigit _ (by omega)
    · exact hdigit _ (by omega)
  · exact absurd heq hescaped

/-- What is written for a text in which nothing is found. -/
theorem clear_encoded {text : List Char} (htext : Lacks at? text) (rest : List Char) :
    Clear at? (text.flatMap JsonText.encodeChar) ('"' :: rest) := by
  induction text with
  | nil => exact clear_nil _
  | cons c text ih =>
    obtain ⟨hc, htail⟩ := clear_cons_iff.1 htext
    rw [List.append_nil] at hc
    rw [List.flatMap_cons, clear_append_iff]
    refine ⟨?_, ih htail⟩
    by_cases hplain : JsonText.encodeChar c = [c]
    · rw [hplain, clear_cons_iff, List.nil_append]
      refine ⟨?_, clear_nil _⟩
      -- A spelling that begins with `c` goes on with characters that are written as they are.
      by_contra hfound
      obtain ⟨found, hfound⟩ := Option.ne_none_iff_exists'.1 hfound
      obtain ⟨spelling, hspelling, hfront, hfinds⟩ := h.goesBy _ _ hfound
      obtain ⟨after, hafter⟩ : spelling <+: c :: text := by
        cases spelling with
        | nil => exact List.nil_prefix
        | cons d spelling =>
          obtain ⟨rfl, hrest⟩ := List.cons_prefix_cons.1 hfront
          have hlinks := (List.forall_mem_cons.1 hspelling.links).2
          exact List.cons_prefix_cons.2 ⟨rfl, prefix_of_encoded hlinks hrest⟩
      rw [← hafter, hfinds] at hc
      cases hc
    · exact clear_of_forall (fun d hd => h.eq_none (ne_of_mem_encodeChar hplain hd)) _

theorem sealed_quote {text : String} (htext : Lacks at? text.toList) :
    Sealed at? (Document.quote text).toList := by
  have hquote : Sealed at? ['"'] := h.sealed_of_all (by decide)
  rw [Document.quote, String.toList_ofList, JsonText.encode]
  intro rest
  exact clear_append_iff.2 ⟨clear_append_iff.2 ⟨hquote _, h.clear_encoded htext rest⟩, hquote rest⟩

/-! ## Documents -/

/-- Between brackets nothing is found that is not found in one of the items. -/
theorem sealed_block {opening closing indent : String} {items : List String}
    (hopening : Sealed at? (opening ++ "\n").toList) (hempty : Sealed at? (opening ++ closing).toList)
    (hindent : Sealed at? indent.toList) (hclosing : Sealed at? closing.toList)
    (hitems : ∀ item ∈ items, Sealed at? item.toList) :
    Sealed at? (Document.block opening closing indent items).toList := by
  have hblank : Sealed at? "    ".toList := h.sealed_of_all (by decide)
  have hline : Sealed at? "\n".toList := h.sealed_of_all (by decide)
  have hcomma : Sealed at? ",\n".toList := h.sealed_of_all (by decide)
  unfold Document.block
  split
  · exact hempty
  · simp only [String.toList_append] at hopening ⊢
    refine (((hopening.append (sealed_intercalate hcomma ?_)).append hline).append hindent).append
      hclosing
    rw [List.forall_mem_map]
    intro item hitem
    simp only [String.toList_append]
    exact (hindent.append hblank).append (hitems item hitem)

/-- **Nothing is found in the text of a document** that is not found in one of its texts. -/
theorem sealed_toText (document : Document)
    (hnames : ∀ entry ∈ document.entries, Lacks at? entry.1.toList)
    (htexts : ∀ entry ∈ document.entries, ∀ text ∈ entry.2, Lacks at? text.toList) :
    Sealed at? document.toText.toList := by
  refine h.sealed_block (h.sealed_of_all (by decide)) (h.sealed_of_all (by decide))
    sealed_nil (h.sealed_of_all (by decide)) ?_
  rw [List.forall_mem_map]
  intro entry hentry
  have hcolon : Sealed at? ": ".toList := h.sealed_of_all (by decide)
  have hlist : Sealed at? (Document.block "[" "]" "    " (entry.2.map Document.quote)).toList := by
    refine h.sealed_block (h.sealed_pair (by decide) (by decide))
      (h.sealed_pair (by decide) (by decide)) (h.sealed_of_all (by decide))
      (h.sealed_of_all (by decide)) ?_
    rw [List.forall_mem_map]
    exact fun text htext => h.sealed_quote (htexts entry hentry text htext)
  simp only [String.toList_append]
  exact ((h.sealed_quote (hnames entry hentry)).append hcolon).append hlist

/-! ## Joined texts -/

omit h in
/-- Behind a piece that opens no bracket comes nothing, a blank, or a mark with a blank or another mark
behind it. -/
theorem joinWordsAfter_cases {before : String} (hbefore : before ≠ "(") (pieces : List String) :
    (joinWordsAfter before pieces).toList = [] ∨
      (∃ rest, (joinWordsAfter before pieces).toList = ' ' :: rest) ∨
      ∃ p rest, (joinWordsAfter before pieces).toList = p :: rest ∧ isOutside p = true ∧
        ∀ d ∈ rest.head?, isOutside d = true := by
  cases pieces with
  | nil => exact .inl rfl
  | cons piece pieces =>
    rw [toList_joinWordsAfter_cons, gap]
    split
    next hsticks =>
      have hmark : closingMarks.contains piece = true := by simpa [sticks, hbefore] using hsticks
      obtain ⟨hpiece, p, hp, heq⟩ := eq_mark_of_closes hmark
      refine .inr (.inr ⟨p, (joinWordsAfter piece pieces).toList, by rw [heq]; rfl, ?_,
        head?_joinWordsAfter hpiece pieces⟩)
      rw [isOutside, hp, Bool.or_true]
    · exact .inr (.inl ⟨_, rfl⟩)

/-- Nothing is found at a place in a literal of a joined text that is not found in the literal. -/
theorem clear_literal {word : String} (hword : Lacks at? word.toList) (pieces : List String) :
    Clear at? word.toList (joinWordsAfter word pieces).toList := by
  by_cases hbracket : word = "("
  · subst hbracket
    exact h.sealed_of_all (by decide) _
  · refine h.goesBy.clear_of_lacks hword fun s _ _ c beyond hfront hspelling => ?_
    obtain hnil | ⟨rest, hblank⟩ | ⟨p, rest, hmark, hp, hrest⟩ := joinWordsAfter_cases hbracket pieces
    · rw [hnil] at hfront
      cases List.prefix_nil.1 hfront
    · -- No spelling has a blank.
      rw [hblank] at hfront
      obtain ⟨rfl, -⟩ := List.cons_prefix_cons.1 hfront
      cases hspelling.links ' ' (by simp)
    · -- In a spelling a mark has something else behind it than a blank or another mark.
      rw [hmark] at hfront
      obtain ⟨rfl, after, rfl⟩ := List.cons_prefix_cons.1 hfront
      obtain ⟨d, hd, hinside⟩ := hspelling.jointed.behind hp
      have houtside := hrest d (List.mem_head?_append_of_mem_head? hd)
      rw [hinside] at houtside
      cases houtside

/-- Nothing is found at a place in a slot of a joined text. -/
theorem clear_slot {slot : Slot} (hslot : Written .hash (.slot slot)) (pieces : List String) :
    Clear at? (SlotStyle.hash.write (.slot slot)).toList
      (joinWordsAfter (SlotStyle.hash.write (.slot slot)) pieces).toList := by
  have hfound := h.slot slot (joinWordsAfter (SlotStyle.hash.write (.slot slot)) pieces).toList hslot
  have hne : SlotStyle.hash.write (.slot slot) ≠ "(" := by
    intro heq
    have hhead := congrArg (fun text => text.toList.head?) heq
    rw [toList_write_slot] at hhead
    cases slot <;> cases hhead
  have hrest := head?_joinWordsAfter hne pieces
  rw [toList_write_slot] at hfound ⊢
  generalize (joinWordsAfter (SlotStyle.hash.write (.slot slot)) pieces).toList = rest at *
  cases slot with
  | anonymous id =>
    have hname : Sealed at? "SLOT]".toList := h.sealed_of_all (by decide)
    exact clear_cons_iff.2 ⟨hfound, hname rest⟩
  | named name =>
    have hname : ∀ c ∈ name.toList, c ≠ '#' ∧ c ≠ '[' := fun c hc => by
      constructor <;> rintro rfl <;> cases hslot.2 _ hc
    have hend : at? ('#' :: rest) = none := by
      refine h.eq_none_of_head? fun d hd => ?_
      by_contra hnameChar
      have houtside := hrest d hd
      rw [isOutside_of_isNameChar (by simpa using hnameChar)] at houtside
      cases houtside
    refine clear_append_iff.2 ⟨clear_cons_iff.2 ⟨?_, h.sealed_of_forall hname _⟩,
      clear_cons_iff.2 ⟨hend, clear_nil rest⟩⟩
    rw [← List.append_assoc]
    exact hfound

/-- Nothing is found in a joined text that is not found in one of the literals. -/
theorem lacks_joinWordsAfter {tokens : List Token} (hwritten : ∀ token ∈ tokens, Written .hash token)
    (hliterals : ∀ text, Token.literal text ∈ tokens → Lacks at? text.toList) (before : String) :
    Lacks at? (joinWordsAfter before (tokens.map SlotStyle.hash.write)).toList := by
  induction tokens generalizing before with
  | nil => exact clear_nil []
  | cons token tokens ih =>
    obtain ⟨htoken, htokens⟩ := List.forall_mem_cons.1 hwritten
    have hgap (after : String) : Sealed at? (gap before after) :=
      h.sealed_of_forall fun c hc => eq_of_mem_gap hc ▸ by decide
    rw [List.map_cons, toList_joinWordsAfter_cons, Lacks, clear_append_iff, clear_append_iff]
    refine ⟨hgap _ _, ?_, ih htokens (fun text htext => hliterals text (.tail _ htext)) _⟩
    rw [List.append_nil]
    cases token with
    | literal word => exact h.clear_literal (hliterals word List.mem_cons_self) _
    | slot slot => exact h.clear_slot htoken _

end Sought

end

/-! ## Texts without modifiers and variables -/

/-- A text that is searched without effect. -/
def IsPlain (text : String) : Prop := dropModifiers text = text ∧ savedVariable? text = none

instance (text : String) : Decidable (IsPlain text) := inferInstanceAs (Decidable (_ ∧ _))

theorem isPlain_iff {text : String} :
    IsPlain text ↔ Lacks modifiedSlot? text.toList ∧ Lacks savedLength? text.toList := by
  have hofList (cs : List Char) : String.ofList cs = text ↔ cs = text.toList :=
    ⟨fun h => h ▸ String.toList_ofList.symm, fun h => h ▸ String.ofList_toList⟩
  rw [IsPlain, ← dropModifiersFrom_eq_self_iff, ← findSaved?_eq_none_iff, dropModifiers, savedVariable?,
    Option.map_eq_none_iff, hofList]

end Tracery

namespace Grammar

open Text Tracery

variable {g : Grammar}

/-- A grammar without modifiers and saved variables in its names and literals. -/
structure IsPlain (g : Grammar) : Prop where
  names : ∀ s ∈ g.slots, Tracery.IsPlain s.key
  literals : ∀ s, ∀ p ∈ g.productions s, ∀ text ∈ p.literals, Tracery.IsPlain text

theorem Readable.lacks_toTracery {α : Type} {at? : List Char → Option α} (h : Readable .hash g)
    (hat : Sought at?) (hnames : ∀ s ∈ g.slots, Lacks at? s.key.toList)
    (hliterals : ∀ s, ∀ p ∈ g.productions s, ∀ text ∈ p.literals, Lacks at? text.toList) :
    Lacks at? (g.toTracery joinWords).toList := by
  have hentries := h.entries_toDocument (writeTemplate .hash)
  refine hat.sealed_toText (g.toDocument (writeTemplate .hash)) ?_ ?_ []
  · rw [hentries, List.forall_mem_map]
    exact fun s hs => hnames s ((sortedSlots_perm g).mem_iff.1 hs)
  · rw [hentries, List.forall_mem_map]
    intro s hs text htext
    obtain ⟨p, hp, rfl⟩ := List.mem_map.1 ((List.mergeSort_perm _ _).mem_iff.1 htext)
    rw [writeTemplate, joinWords_eq_joinWordsAfter]
    refine hat.lacks_joinWordsAfter (h.written s p hp) (fun text htext => ?_) "("
    exact hliterals s p hp text (List.mem_filterMap.2 ⟨_, htext, rfl⟩)

theorem isPlain_of_entries (h : ∀ rule ∈ g.rules.entries, Tracery.IsPlain rule.1.key ∧
    ∀ p ∈ rule.2, ∀ text ∈ p.literals, Tracery.IsPlain text) : g.IsPlain := by
  refine ⟨fun s hs => ?_, fun s p hp => ?_⟩
  · obtain ⟨rule, hrule, rfl⟩ := List.mem_map.1 hs
    exact (h rule hrule).1
  · obtain ⟨ps, hps, hp⟩ := exists_rule_of_mem_productions hp
    exact (h _ hps).2 p hp

/-- The document of a grammar without modifiers and variables has none. -/
theorem Readable.isPlain_toTracery (h : Readable .hash g) (hplain : g.IsPlain) :
    Tracery.IsPlain (g.toTracery joinWords) := by
  have hnames := fun s hs => isPlain_iff.1 (hplain.names s hs)
  have hliterals := fun s p hp text htext => isPlain_iff.1 (hplain.literals s p hp text htext)
  exact isPlain_iff.2
    ⟨h.lacks_toTracery sought_modifiedSlot? (fun s hs => (hnames s hs).1)
        fun s p hp text htext => (hliterals s p hp text htext).1,
      h.lacks_toTracery sought_savedLength? (fun s hs => (hnames s hs).2)
        fun s p hp text htext => (hliterals s p hp text htext).2⟩

/-- **A grammar that was read from a Tracery document is read again from its own**, if no modifier and
no saved variable is in one of its names and literals. -/
theorem ofTracery?_toTracery {text : String} {supply rest : Nat}
    (h : ofTracery? text supply = .ok (g, rest)) (hplain : g.IsPlain) (next : Nat) :
    ∃ again after, ofTracery? (g.toTracery joinWords) next = .ok (again, after) ∧
      (again == g) = true := by
  have hreadable : Readable .hash g := by
    unfold ofTracery? at h
    simp only at h
    split at h
    · cases h
    · obtain ⟨document, -, hg⟩ := map_eq_ok h
      have hread := readable_ofTexts .hash document supply
      rwa [hg] at hread
  obtain ⟨hdrop, hsaved⟩ := hreadable.isPlain_toTracery hplain
  refine ⟨_, (ofTexts .hash (g.toDocument (writeTemplate .hash)).entries next).2, ?_,
    ofTexts_toDocument hreadable next⟩
  simp only [ofTracery?, hdrop, hsaved]
  rw [toTracery, Document.read?_toText]
  rfl

/-- Slots with and without modifiers, a number with a dot in it, and a hash sign that is no slot. -/
def modifiedRules : String :=
  "\x7b\"origin\": [\"#name.capitalize#: 3.5 (#size#)\"], \"name\": [\"a#b\", \"[SLOT].\"]\x7d"

theorem ofTracery?_toTracery_of_modified :
    ∃ g rest, ofTracery? modifiedRules 0 = .ok (g, rest) ∧ g.IsPlain ∧
      ∃ again after, ofTracery? (g.toTracery joinWords) rest = .ok (again, after) ∧
        (again == g) = true := by
  obtain ⟨⟨g, rest⟩, hg, hrules⟩ : ∃ read, ofTracery? modifiedRules 0 = .ok read ∧
      read.1.rules.entries =
        [(.named "origin", [⟨[.slot (.named "name"), .literal ":", .literal "3.5", .literal "(",
            .slot (.named "size"), .literal ")"]⟩]),
          (.named "name", [⟨[.literal "a#b"]⟩, ⟨[.slot (.anonymous 0), .literal "."]⟩])] := by
    apply exists_of_toOption
    decide +kernel
  have hplain : g.IsPlain := isPlain_of_entries (by rw [hrules]; decide +kernel)
  exact ⟨g, rest, hg, hplain, ofTracery?_toTracery hg hplain rest⟩

/-- A slot with a modifier that an escape hides. -/
def hiddenModifier : String := "\x7b\"origin\": [\"\\u0023a.b#\"]\x7d"

/-- A literal with the spelling of a slot with a modifier comes back as a slot. -/
theorem ofTracery?_toTracery_fails :
    ∃ g rest, ofTracery? hiddenModifier 0 = .ok (g, rest) ∧
      ∃ again after, ofTracery? (g.toTracery joinWords) rest = .ok (again, after) ∧
        (again == g) = false := by
  obtain ⟨⟨g, rest⟩, hg, hagain⟩ : ∃ read, ofTracery? hiddenModifier 0 = .ok read ∧
      (ofTracery? (read.1.toTracery joinWords) read.2).toOption.map (·.1 == read.1) = some false := by
    apply exists_of_toOption
    decide +kernel
  obtain ⟨⟨again, after⟩, hafter, hne⟩ := exists_of_toOption hagain
  exact ⟨g, rest, hg, again, after, hafter, hne⟩

end Grammar

end GrammarInduction
