import GrammarInduction.Slot

/-!
# Tokens

A token is a piece of literal text or a slot. Literals come before slots in `Token.le`; among
themselves literals are ordered by their text and slots as in `Slot.le`.
-/

namespace GrammarInduction

/-- One element of a template. -/
inductive Token where
  /-- Text that stands for itself. -/
  | literal (text : String)
  /-- A placeholder. -/
  | slot (slot : Slot)
  deriving DecidableEq, Repr

namespace Token

def isSlot : Token → Bool
  | slot _ => true
  | literal _ => false

def slot? : Token → Option Slot
  | slot s => some s
  | literal _ => none

def literal? : Token → Option String
  | literal text => some text
  | slot _ => none

/-- Written form, named slots between angle brackets. -/
def render : Token → String
  | literal text => text
  | slot s => s.render

/-- Written form, named slots between hash signs. -/
def renderHash : Token → String
  | literal text => text
  | slot s => s.renderHash

/-- Without the number of an anonymous slot. -/
def erase : Token → Token
  | literal text => literal text
  | slot s => slot s.erase

@[simp] theorem isSlot_erase (t : Token) : t.erase.isSlot = t.isSlot := by
  cases t <;> rfl

@[simp] theorem literal?_erase (t : Token) : t.erase.literal? = t.literal? := by
  cases t <;> rfl

/-- Equality up to the numbers of anonymous slots. -/
def same : Token → Token → Bool
  | literal a, literal b => a == b
  | slot s, slot t => s.same t
  | _, _ => false

theorem same_iff {s t : Token} : s.same t = true ↔ s.erase = t.erase := by
  cases s <;> cases t <;> simp [same, erase, Slot.same_iff]

/-- Literals by text, then slots. -/
def le : Token → Token → Bool
  | literal a, literal b => a ≤ b
  | literal _, slot _ => true
  | slot _, literal _ => false
  | slot s, slot t => s.le t

theorem le_trans {s t u : Token} (hst : s.le t = true) (htu : t.le u = true) :
    s.le u = true := by
  cases s <;> cases t <;> cases u <;> simp_all [le]
  · exact String.le_trans hst htu
  · exact Slot.le_trans hst htu

theorem le_total (s t : Token) : (s.le t || t.le s) = true := by
  cases s <;> cases t <;> simp [le]
  · exact String.le_total _ _
  · simpa using Slot.le_total _ _

end Token

end GrammarInduction
