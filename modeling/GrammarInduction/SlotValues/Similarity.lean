import GrammarInduction.SlotValues

/-!
# Similar value sets

Two sets of templates are similar at threshold 1 if they are equal, and below that if they share a
large enough part of their union. The empty template is discounted: it leaves the shared part if
both sets have it, and the union if one of them has it.
-/

namespace GrammarInduction

namespace OrderedSet

/-- The number of members of the union of two sets. -/
def unionSize {α : Type u} [BEq α] (s t : OrderedSet α) : Nat :=
  s.size + t.toList.countP fun a => !s.contains a

end OrderedSet

namespace Similarity

/-- The size of the shared part without the empty template. -/
def shared (first second : OrderedSet Template) : Nat :=
  first.sharedWith second - (first.contains .empty && second.contains .empty).toNat

/-- The size of the union without the empty template. -/
def union (first second : OrderedSet Template) : Nat :=
  first.unionSize second - (first.contains .empty || second.contains .empty).toNat

end Similarity

/-- Whether two value sets are similar at a threshold. -/
def similar (threshold : Float) (first second : OrderedSet Template) : Bool :=
  if threshold ≥ 1.0 then first.sameMembers second
  else
    let union := Similarity.union first second
    if union = 0 then first.sameMembers second
    else Float.ofNat (Similarity.shared first second) / Float.ofNat union ≥ threshold

end GrammarInduction
