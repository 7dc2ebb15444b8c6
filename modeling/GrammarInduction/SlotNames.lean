/-!
# Names for slots

`slotName n` is the `n`-th name: `n` written in base 26 with the letters `A` to `Z` for digits, so
that `Z` is followed by `BA`. A `NameSource` yields these names in order and leaves out the reserved
ones. `NameSource.next` finds the next name among as many candidates as there are reserved names
and one more; one of them is free, since names with different numbers differ.
-/

namespace GrammarInduction

/-- The letter for a digit of base 26. -/
def letter (digit : Nat) : Char := Char.ofNat ('A'.toNat + digit)

/-- The digits of a positive number in base 26, most significant first, in front of `digits`. -/
def base26 : Nat → Nat → List Char → List Char
  | 0, _, digits => digits
  | fuel + 1, n, digits =>
    if n = 0 then digits else base26 fuel (n / 26) (letter (n % 26) :: digits)

/-- The `n`-th name. -/
def slotName (n : Nat) : String :=
  if n = 0 then "A" else String.ofList (base26 (n.log2 + 1) n [])

/-- A source of fresh names. -/
structure NameSource where
  /-- The number of the next name to try. -/
  number : Nat := 0
  /-- The names that are not to be used. -/
  reserved : List String := []
  deriving DecidableEq, Repr

namespace NameSource

/-- A source that leaves out the given names. -/
def skipping (reserved : List String) : NameSource := { reserved }

/-- Leaves out one more name from now on. -/
def reserve (source : NameSource) (name : String) : NameSource :=
  { source with reserved := name :: source.reserved }

/-- The number of the next free name. -/
def nextNumber (source : NameSource) : Nat :=
  let candidates := List.range' source.number (source.reserved.length + 1)
  (candidates.find? fun n => !source.reserved.contains (slotName n)).getD source.number

/-- The next free name, and the source after it. -/
def next (source : NameSource) : String × NameSource :=
  (slotName source.nextNumber, { source with number := source.nextNumber + 1 })

/-- The next few free names, and the source after them. -/
def take (source : NameSource) : Nat → List String × NameSource
  | 0 => ([], source)
  | count + 1 =>
    let (name, source) := source.next
    let (names, source) := source.take count
    (name :: names, source)

end NameSource

end GrammarInduction
