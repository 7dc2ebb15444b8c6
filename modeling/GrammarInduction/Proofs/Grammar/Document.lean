import GrammarInduction.Grammar.Document
import GrammarInduction.Proofs.Json.Lexemes
import GrammarInduction.Proofs.Outcome

/-!
# Reading a document that is written

The text of a document spells the lexemes that its names and lists of texts prescribe
(`spells_toText`), these lexemes are the value with the same names and lists (`ofLexemes?_lexemes`),
and of this value the document is read off (`ofMembers?_members`). So reading gives back the document
that was written, whatever characters its texts hold (`read?_toText`).
-/

namespace GrammarInduction

/-! ## The lexemes of what is written -/

namespace Lexeme

/-- The lexemes of items with commas between them. -/
def separated : List (List Lexeme) → List Lexeme
  | [] => []
  | first :: rest => first ++ rest.flatMap (.comma :: ·)

/-- The lexeme of a text. -/
def ofText (text : String) : Lexeme := .scalar (.text (some text))

/-- The lexemes of a list of texts. -/
def ofTexts (texts : List String) : List Lexeme :=
  .openArray :: separated (texts.map fun text => [ofText text]) ++ [.closeArray]

/-- The lexemes of a name with its texts. -/
def ofEntry (entry : String × List String) : List Lexeme :=
  ofText entry.1 :: .colon :: ofTexts entry.2

/-- The lexemes of a document. -/
def ofEntries (entries : List (String × List String)) : List Lexeme :=
  .openObject :: separated (entries.map ofEntry) ++ [.closeObject]

theorem intercalate_cons_eq (sep first : List Char) (rest : List (List Char)) :
    sep.intercalate (first :: rest) = first ++ rest.flatMap (sep ++ ·) := by
  induction rest generalizing first with
  | nil => simp
  | cons next rest ih =>
    rw [List.intercalate_cons_cons, ih, List.flatMap_cons, List.append_assoc, List.append_assoc]

theorem spells_mark {c : Char} {lexeme : Lexeme} (hc : isBlank c = false)
    (h : ∀ rest, scan? (c :: rest) = some (lexeme, rest)) : Spells [c] [lexeme] :=
  spells_one hc h

theorem spells_quote (text : String) : Spells (Document.quote text).toList [ofText text] := by
  rw [Document.quote, String.toList_ofList]
  exact spells_encode text

/-- Items on lines of their own are spelled with commas between them. -/
theorem spells_lines {α : Type} {as : List α} {write : α → String} {lexemes : α → List Lexeme}
    {indent : String} (hindent : indent.toList.all isBlank = true)
    (h : ∀ a ∈ as, Spells (write a).toList (lexemes a)) :
    Spells (",\n".intercalate ((as.map write).map (indent ++ ·))).toList
      (separated (as.map lexemes)) := by
  have hline {a : α} (ha : a ∈ as) : Spells (indent ++ write a).toList (lexemes a) := by
    rw [String.toList_append]
    exact (h a ha).blanks _ hindent
  rw [String.toList_intercalate]
  cases as with
  | nil => exact spells_nil
  | cons a as =>
    rw [List.map_cons, List.map_cons, List.map_cons, intercalate_cons_eq, List.map_cons, separated]
    refine (hline List.mem_cons_self).append ?_
    rw [List.flatMap_map, List.flatMap_map, List.flatMap_map, List.flatMap_map]
    refine spells_flatMap fun b hb => ?_
    have hcomma : Spells [','] [.comma] := spells_mark (by decide) fun _ => rfl
    exact hcomma.append ((hline (.tail _ hb)).blanks ['\n'] (by decide))

/-- A block is spelled by its brackets and, between them, its items. -/
theorem spells_block {α : Type} {as : List α} {write : α → String} {lexemes : α → List Lexeme}
    {opening closing indent : String} (hindent : indent.toList.all isBlank = true)
    {first last : Lexeme} (hopening : Spells opening.toList [first])
    (hclosing : Spells closing.toList [last])
    (h : ∀ a ∈ as, Spells (write a).toList (lexemes a)) :
    Spells (Document.block opening closing indent (as.map write)).toList
      (first :: separated (as.map lexemes) ++ [last]) := by
  unfold Document.block
  split
  next hempty =>
    obtain rfl : as = [] := by simpa using hempty
    rw [String.toList_append]
    exact hopening.append hclosing
  · have hdeeper : (indent ++ "    ").toList.all isBlank = true := by
      rw [String.toList_append, List.all_append, hindent]
      decide
    have hlines := (spells_lines hdeeper h).blanks ['\n'] (by decide)
    have hend := (hclosing.blanks _ hindent).blanks ['\n'] (by decide)
    simpa [String.toList_append] using (hopening.append hlines).append hend

theorem spells_list (texts : List String) :
    Spells (Document.block "[" "]" "    " (texts.map Document.quote)).toList (ofTexts texts) :=
  spells_block (by decide) (spells_mark (by decide) fun _ => rfl)
    (spells_mark (by decide) fun _ => rfl) fun text _ => spells_quote text

theorem spells_entry (entry : String × List String) :
    Spells (Document.quote entry.1 ++ ": " ++
      Document.block "[" "]" "    " (entry.2.map Document.quote)).toList (ofEntry entry) := by
  have hcolon : Spells [':'] [.colon] := spells_mark (by decide) fun _ => rfl
  have hlist := hcolon.append ((spells_list entry.2).blanks [' '] (by decide))
  simpa [String.toList_append, ofEntry] using (spells_quote entry.1).append hlist

/-- **The text of a document spells its lexemes.** -/
theorem spells_toText (document : Document) :
    Spells document.toText.toList (ofEntries document.entries) :=
  spells_block (by decide) (spells_mark (by decide) fun _ => rfl)
    (spells_mark (by decide) fun _ => rfl) fun entry _ => spells_entry entry

end Lexeme

/-! ## The value of these lexemes -/

namespace Json

/-- A list of texts as a value. -/
def ofTexts (texts : List String) : Json := .array (texts.map fun text => .text (some text))

/-- Names with lists of texts as members of an object. -/
def members (entries : List (String × List String)) : List (Option String × Json) :=
  entries.map fun entry => (some entry.1, ofTexts entry.2)

end Json

namespace Reading

open Lexeme

variable (frames : List Frame)

theorem foldlM_items (items : List Json) (texts : List String) :
    (texts.flatMap fun text => [.comma, Lexeme.ofText text]).foldlM step
        (within (.array items :: frames) .commaOrClose) =
      some (within (.array ((texts.map fun text => .text (some text)).reverse ++ items) :: frames)
        .commaOrClose) := by
  induction texts generalizing items with
  | nil => rfl
  | cons text texts ih =>
    rw [List.flatMap_cons, List.foldlM_append]
    refine (ih (.text (some text) :: items)).trans ?_
    simp

/-- The lexemes of a list of texts put that list in its place. -/
theorem foldlM_ofTexts (texts : List String) :
    (Lexeme.ofTexts texts).foldlM step (within frames .value) =
      place (Json.ofTexts texts) frames := by
  cases texts with
  | nil => simp [Lexeme.ofTexts, separated, step, beginValue, closeArray, Json.ofTexts]
  | cons text texts =>
    have hitems := foldlM_items frames [.text (some text)] texts
    simp only [Lexeme.ofTexts, List.map_cons, separated, List.flatMap_map, List.cons_append,
      List.nil_append, List.foldlM_cons, List.foldlM_append, Option.bind_eq_bind]
    have hopen : step (within frames .value) .openArray =
        some (within (.array [] :: frames) .itemOrClose) := rfl
    have hfirst : step (within (.array [] :: frames) .itemOrClose) (Lexeme.ofText text) =
        some (within (.array [.text (some text)] :: frames) .commaOrClose) := rfl
    simp only [hopen, hfirst, hitems, Option.bind_some]
    simp [step, closeArray, Json.ofTexts]

theorem foldlM_ofEntry (known : List (Option String × Json)) (expected : Expected)
    (hexpected : expected = .key ∨ expected = .keyOrClose) (entry : String × List String) :
    (Lexeme.ofEntry entry).foldlM step (within (.object known :: frames) expected) =
      some (within (.object ((some entry.1, Json.ofTexts entry.2) :: known) :: frames)
        .commaOrClose) := by
  have hkey : step (within (.object known :: frames) expected) (Lexeme.ofText entry.1) =
      some (within (.member known (some entry.1) :: frames) .colon) := by
    rcases hexpected with rfl | rfl <;> rfl
  rw [Lexeme.ofEntry, List.foldlM_cons, hkey]
  exact foldlM_ofTexts _ entry.2

theorem foldlM_entries (known : List (Option String × Json)) (entries : List (String × List String)) :
    (entries.flatMap fun entry => .comma :: Lexeme.ofEntry entry).foldlM step
        (within (.object known :: frames) .commaOrClose) =
      some (within (.object ((Json.members entries).reverse ++ known) :: frames) .commaOrClose) := by
  induction entries generalizing known with
  | nil => rfl
  | cons entry entries ih =>
    have hentry := foldlM_ofEntry frames known .key (.inl rfl) entry
    have hrest := ih ((some entry.1, Json.ofTexts entry.2) :: known)
    simp only [List.flatMap_cons, List.cons_append, List.foldlM_cons, List.foldlM_append, step,
      takeComma, Option.bind_eq_bind, Option.bind_some, hentry, hrest]
    simp [Json.members]

end Reading

namespace Json

open Lexeme

/-- **The lexemes of a document are the value with its names and lists.** -/
theorem ofLexemes?_ofEntries (entries : List (String × List String)) :
    ofLexemes? (ofEntries entries) = some (.object (members entries)) := by
  have hopen : Reading.step Reading.start .openObject =
      some (.within [.object []] .keyOrClose) := rfl
  have hfold : (ofEntries entries).foldlM Reading.step Reading.start =
      some (.complete (.object (members entries))) := by
    rw [ofEntries, List.cons_append, List.foldlM_cons, hopen]
    cases entries with
    | nil => rfl
    | cons entry entries =>
      have hentry := Reading.foldlM_ofEntry [] [] .keyOrClose (.inr rfl) entry
      have hrest := Reading.foldlM_entries [] [(some entry.1, ofTexts entry.2)] entries
      simp only [List.map_cons, separated, List.flatMap_map, List.foldlM_append,
        Option.bind_eq_bind, Option.bind_some, hentry, hrest]
      simp [Reading.step, Reading.closeObject, Reading.place, members]
  rw [ofLexemes?, hfold]

theorem denotesItems_texts (depth : Nat) (texts : List String) :
    denotesItems depth (texts.map fun text => .text (some text)) = true := by
  induction texts with
  | nil => rfl
  | cons text texts ih => simp [denotesItems, denotes, ih]

theorem denotesMembers_members (depth : Nat) (entries : List (String × List String)) :
    denotesMembers (depth + 1) (members entries) = true := by
  induction entries with
  | nil => rfl
  | cons entry entries ih =>
    have hentry : denotes (depth + 1) (ofTexts entry.2) = true := denotesItems_texts depth entry.2
    simpa [members, denotesMembers, hentry] using ih

theorem read?_toText (document : Document) :
    read? document.toText = some (.object (members document.entries)) := by
  have hspells := spells_toText document
  have hscan : scanAll? [] document.toText.length document.toText.toList =
      some (ofEntries document.entries) := by
    have hle := hspells.length_le
    rw [String.length_toList] at hle
    have hall := hspells.scanAll? [] (document.toText.length - (ofEntries document.entries).length) []
    rw [Nat.add_sub_cancel' hle, List.append_nil, List.append_nil] at hall
    rw [hall, Lexeme.scanAll?.eq_def]
    simp
  have hparse : parse? document.toText = some (.object (members document.entries)) := by
    rw [parse?, hscan, Option.bind_some, ofLexemes?_ofEntries]
  rw [read?, hparse, Option.filter_some, if_pos]
  exact denotesMembers_members 125 document.entries

end Json

/-! ## The document of this value -/

namespace Document

theorem texts?_ofTexts (name : String) (texts : List String) :
    texts? name (Json.ofTexts texts) = .ok texts := by
  have hmap : (texts.map fun text => Json.text (some text)).mapM Json.text? = some texts := by
    induction texts with
    | nil => rfl
    | cons text texts ih => simp [Json.text?, ih]
  rw [Json.ofTexts, texts?, hmap]

theorem foldlM_entries (document : Document) (entries : List (String × List String)) :
    (entries.map fun entry => (entry.1, Json.ofTexts entry.2)).foldlM
        (fun (document : Document) (name, value) => (texts? name value).map (document.insert name))
        document = .ok (document.insertAll entries) := by
  induction entries generalizing document with
  | nil => rfl
  | cons entry entries ih =>
    rw [List.map_cons, List.foldlM_cons]
    simp only [texts?_ofTexts]
    exact ih (document.insert entry.1 entry.2)

/-- **A document is read off the value with its names and lists.** -/
theorem ofMembers?_members (document : Document) :
    ofMembers? (Json.members document.entries) = .ok document := by
  have hvalues : namedValues (Json.members document.entries) =
      document.mapValues fun _ => Json.ofTexts := by
    rw [namedValues, Json.members, List.filterMap_map]
    refine (congrArg OrderedMap.ofList (congrFun List.filterMap_eq_map' document.entries)).trans ?_
    exact OrderedMap.ofList_entries (document.mapValues fun _ => Json.ofTexts)
  rw [ofMembers?, hvalues]
  exact (foldlM_entries OrderedMap.empty document.entries).trans
    (congrArg Except.ok document.ofList_entries)

/-- The text of a document begins with an opening brace. -/
theorem first?_toText (document : Document) :
    Lexeme.first? document.toText.toList = some .openObject := by
  have hbrace : ∃ rest, document.toText.toList = '\x7b' :: rest := by
    unfold toText block
    split <;> simp [String.toList_append]
  obtain ⟨rest, hrest⟩ := hbrace
  rw [hrest, Lexeme.first?, List.dropWhile_cons_of_neg (by decide)]
  rfl

/-- **Reading gives back the document that was written.** -/
theorem read?_toText (document : Document) : read? document.toText = .ok document := by
  simp only [read?, first?_toText, Json.read?_toText, ofMembers?_members]

end Document

end GrammarInduction
