import GrammarInduction.Ordered.Set
import GrammarInduction.Text.Marker
import GrammarInduction.Text.Spacing

/-!
# Templates

A template is a sequence of tokens: literal text with slots in it. Two notions of equality live
side by side.

* `a = b` is equality of the tokens; it tells anonymous slots apart by their numbers.
* `a == b` is equality of the *forms*, the tokens without the numbers of anonymous slots
  (`Template.beq_iff`); it is an equivalence, and sets of templates go by it.

`Template.shape` forgets the slots altogether and keeps only where they stand.
-/

namespace GrammarInduction

/-- A sequence of literal texts and slots. -/
structure Template where
  tokens : List Token
  deriving DecidableEq, Repr

namespace Template

/-- The tokens without the numbers of anonymous slots. -/
def form (t : Template) : List Token := t.tokens.map Token.erase

instance : BEq Template := ⟨fun a b => a.tokens.isEqv b.tokens Token.same⟩

theorem isEqv_same_iff {as bs : List Token} :
    as.isEqv bs Token.same = true ↔ as.map Token.erase = bs.map Token.erase := by
  induction as generalizing bs with
  | nil => cases bs <;> simp [List.isEqv]
  | cons a as ih => cases bs <;> simp [List.isEqv, Token.same_iff, ih]

theorem beq_iff {a b : Template} : (a == b) = true ↔ a.form = b.form := isEqv_same_iff

instance : EquivBEq Template where
  rfl := beq_iff.2 rfl
  symm h := beq_iff.2 (beq_iff.1 h).symm
  trans h k := beq_iff.2 ((beq_iff.1 h).trans (beq_iff.1 k))

/-- The template without tokens. -/
def empty : Template := ⟨[]⟩

instance : Inhabited Template := ⟨empty⟩

/-- The template that is nothing but one slot. -/
def ofSlot (s : Slot) : Template := ⟨[.slot s]⟩

/-- The template of a text, with the supply before and after. -/
def parse (tokenizer : Tokenizer) (style : SlotStyle) (text : String) (supply : Nat) :
    Template × Nat :=
  let (tokens, supply) := Text.tokens tokenizer style text supply
  (⟨tokens⟩, supply)

/-- The template of a text in words with slots between angle brackets. -/
def ofText (text : String) (supply : Nat) : Template × Nat :=
  parse Text.words .angle text supply

/-- The templates of texts one after the other, with the supply before and after. -/
def parseAll (tokenizer : Tokenizer) (style : SlotStyle) : List String → Nat → List Template × Nat
  | [], supply => ([], supply)
  | text :: texts, supply =>
    let (t, supply) := parse tokenizer style text supply
    let (ts, supply) := parseAll tokenizer style texts supply
    (t :: ts, supply)

/-! ## Parts -/

def length (t : Template) : Nat := t.tokens.length

def isEmpty (t : Template) : Bool := t.tokens.isEmpty

/-- The slots from left to right, repeated ones as often as they occur. -/
def slots (t : Template) : List Slot := t.tokens.filterMap Token.slot?

/-- The literal texts from left to right. -/
def literals (t : Template) : List String := t.tokens.filterMap Token.literal?

def hasSlots (t : Template) : Bool := t.tokens.any Token.isSlot

/-- The slot of a template that is nothing but one slot. -/
def single? (t : Template) : Option Slot :=
  match t.tokens with
  | [.slot s] => some s
  | _ => none

/-- The literals and, in between, where slots stand. -/
def shape (t : Template) : List (Option String) := t.tokens.map Token.literal?

/-- Equal up to which slots stand in the places of slots. -/
def sameShape (a b : Template) : Bool := a.shape == b.shape

@[simp] theorem single?_ofSlot (s : Slot) : (ofSlot s).single? = some s := rfl

theorem eq_ofSlot_of_single? {t : Template} {s : Slot} (h : t.single? = some s) :
    t = ofSlot s := by
  obtain ⟨tokens⟩ := t
  simp only [single?] at h
  split at h
  · simp_all [ofSlot]
  · simp at h

theorem shape_eq_of_beq {a b : Template} (h : (a == b) = true) : a.shape = b.shape := by
  have erased (t : Template) : t.shape = t.form.map Token.literal? := by
    simp [shape, form, Function.comp_def]
  rw [erased, erased, beq_iff.1 h]

theorem length_eq_of_beq {a b : Template} (h : (a == b) = true) : a.length = b.length := by
  have := congrArg List.length (beq_iff.1 h)
  simpa [form, length] using this

/-! ## Written forms -/

/-- Tokens with one space between any two. -/
def render (t : Template) : String := " ".intercalate (t.tokens.map Token.render)

/-- The text that a detokenizer makes of the tokens. -/
def toText (join : Detokenizer) (t : Template) : String := join (t.tokens.map Token.render)

/-- The same with slots between hash signs. -/
def toHashText (join : Detokenizer) (t : Template) : String := join (t.tokens.map Token.renderHash)

end Template

end GrammarInduction
