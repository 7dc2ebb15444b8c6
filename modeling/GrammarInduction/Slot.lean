/-!
# Slots

A slot is a placeholder for text. A *named* slot is known by its name wherever it occurs; an
*anonymous* slot is known only by the number it got when it was made, so that two anonymous slots
made separately are different slots.

* `Slot.render` writes a slot: `<name>`, or the marker `[SLOT]` for an anonymous one.
* `Slot.le` orders slots: anonymous ones first, by age, then named ones by name, code point by
  code point. It is a linear order (`Slot.le_refl`, `Slot.le_trans`, `Slot.le_antisymm`,
  `Slot.le_total`).

Fresh anonymous slots are drawn from a *supply*, the least number that is not in use yet. A
function that makes slots takes the supply and hands back what is left of it.
-/

namespace GrammarInduction

/-- A placeholder for text. -/
inductive Slot where
  /-- A placeholder without a name, the `id`-th that was made. -/
  | anonymous (id : Nat)
  /-- A placeholder that stands for the non-terminal `name`. -/
  | named (name : String)
  deriving DecidableEq, Repr

namespace Slot

/-- What is written for an anonymous slot. -/
def marker : String := "[SLOT]"

def isNamed : Slot → Bool
  | named _ => true
  | anonymous _ => false

/-- The name of a named slot. -/
def name? : Slot → Option String
  | named name => some name
  | anonymous _ => none

/-- Written form between angle brackets. -/
def render : Slot → String
  | anonymous _ => marker
  | named name => "<" ++ name ++ ">"

/-- Written form between hash signs. -/
def renderHash : Slot → String
  | anonymous _ => marker
  | named name => "#" ++ name ++ "#"

/-- The key of the slot in an exported document: its bare name, or the marker. -/
def key : Slot → String
  | anonymous _ => marker
  | named name => name

/-! ## Order -/

/-- Anonymous slots by age, then named slots by name. -/
def le : Slot → Slot → Bool
  | anonymous i, anonymous j => i ≤ j
  | anonymous _, named _ => true
  | named _, anonymous _ => false
  | named a, named b => a ≤ b

theorem le_refl (s : Slot) : s.le s = true := by
  cases s <;> simp [le]

theorem le_trans {s t u : Slot} (hst : s.le t = true) (htu : t.le u = true) :
    s.le u = true := by
  cases s <;> cases t <;> cases u <;> simp_all [le]
  · omega
  · exact String.le_trans hst htu

theorem le_antisymm {s t : Slot} (hst : s.le t = true) (hts : t.le s = true) : s = t := by
  cases s <;> cases t <;> simp_all [le]
  · omega
  · exact String.le_antisymm hst hts

theorem le_total (s t : Slot) : (s.le t || t.le s) = true := by
  cases s <;> cases t <;> simp [le]
  · omega
  · exact String.le_total _ _

/-- Without the number of an anonymous slot: what is left says only that it is anonymous. -/
def erase : Slot → Slot
  | anonymous _ => anonymous 0
  | named name => named name

/-- Equality up to the numbers of anonymous slots. -/
def same : Slot → Slot → Bool
  | anonymous _, anonymous _ => true
  | named a, named b => a == b
  | _, _ => false

theorem same_iff {s t : Slot} : s.same t = true ↔ s.erase = t.erase := by
  cases s <;> cases t <;> simp [same, erase]

end Slot

end GrammarInduction
