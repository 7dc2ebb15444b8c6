import GrammarInduction.SlotValues.Similarity
import Mathlib.Data.Finset.Card

/-!
# Which value sets are similar

A set of templates stands for the set of their forms, of which it has as many as it has members
(`card_forms`). So the counts that similarity goes by are the cardinalities of the intersection and the
union of two sets of forms (`sharedWith_eq_card`, `unionSize_eq_card`).

The empty template leaves the intersection if both sets have it, and the union already if one of them has
it (`similar_iff_overlap`): what is compared are the sets without it (`similar_erase_empty`), so that a
slot that may be left out can be similar to one that may not.
-/

namespace GrammarInduction

variable {s t : OrderedSet Template} {threshold : Float}

/-! ## Sets of forms -/

namespace OrderedSet

/-- The forms of the members. -/
def forms (s : OrderedSet Template) : Finset (List Token) := (s.toList.map Template.form).toFinset

theorem contains_iff_mem_forms {a : Template} : s.contains a = true ↔ a.form ∈ s.forms := by
  simp [forms, contains_iff, Template.beq_iff]

theorem nodup_map_form (s : OrderedSet Template) : (s.toList.map Template.form).Nodup := by
  refine List.pairwise_map.2 (s.distinct.imp fun {a b} hab hform => ?_)
  rw [Template.beq_iff.2 hform] at hab
  cases hab

/-- To count members by their forms is to count forms. -/
theorem countP_eq_card_filter (s : OrderedSet Template) (p : List Token → Prop) [DecidablePred p] :
    s.toList.countP (fun a => decide (p a.form)) = (s.forms.filter p).card := by
  rw [forms, List.filter_toFinset, List.toFinset_card_of_nodup (s.nodup_map_form.filter _),
    ← List.countP_eq_length_filter, List.countP_map]
  rfl

theorem card_forms (s : OrderedSet Template) : s.forms.card = s.size := by
  rw [forms, List.toFinset_card_of_nodup s.nodup_map_form, List.length_map, size]

theorem subset_iff : s.subset t = true ↔ s.forms ⊆ t.forms := by
  simp only [subset, List.all_eq_true, contains_iff_mem_forms, Finset.subset_iff, forms,
    List.mem_toFinset, List.forall_mem_map]

theorem sameMembers_iff : s.sameMembers t = true ↔ s.forms = t.forms := by
  rw [sameMembers, Bool.and_eq_true, beq_iff_eq, subset_iff, ← card_forms, ← card_forms]
  refine ⟨fun ⟨hcard, hsubset⟩ => Finset.eq_of_subset_of_card_le hsubset hcard.ge, fun h => ?_⟩
  exact ⟨congrArg _ h, h.subset⟩

theorem sameMembers_comm (s t : OrderedSet Template) : s.sameMembers t = t.sameMembers s := by
  rw [Bool.eq_iff_iff, sameMembers_iff, sameMembers_iff, eq_comm]

theorem sharedWith_eq_card (s t : OrderedSet Template) :
    s.sharedWith t = (s.forms ∩ t.forms).card := by
  rw [← Finset.filter_mem_eq_inter, ← countP_eq_card_filter, sharedWith]
  refine List.countP_congr fun a _ => ?_
  rw [contains_iff_mem_forms, decide_eq_true_iff]

theorem unionSize_eq_card (s t : OrderedSet Template) :
    s.unionSize t = (s.forms ∪ t.forms).card := by
  have hnew : t.toList.countP (fun a => !s.contains a) = (t.forms \ s.forms).card := by
    rw [← Finset.filter_notMem_eq_sdiff, ← countP_eq_card_filter]
    refine List.countP_congr fun a _ => ?_
    rw [Bool.not_eq_true', ← Bool.not_eq_true, contains_iff_mem_forms, decide_eq_true_iff]
  rw [unionSize, hnew, ← card_forms, Finset.union_comm, ← Finset.card_sdiff_add_card, Nat.add_comm]

end OrderedSet

/-! ## The rule -/

namespace Similarity

open OrderedSet

/-- Whether the shared part of two sets is a large enough part of their union, where the shared part
and the union are smaller by a number. Sets that nothing is left of are compared as they are. -/
def Overlap (threshold : Float) (A B : Finset (List Token)) (fromShared fromUnion : Nat) : Prop :=
  if (A ∪ B).card - fromUnion = 0 then A = B
  else Float.ofNat ((A ∩ B).card - fromShared) / Float.ofNat ((A ∪ B).card - fromUnion) ≥ threshold

instance (threshold : Float) (A B : Finset (List Token)) (fromShared fromUnion : Nat) :
    Decidable (Overlap threshold A B fromShared fromUnion) :=
  inferInstanceAs (Decidable (if (A ∪ B).card - fromUnion = 0 then _ else _))

/-- The shared part is smaller by one without the empty template if both sets have it. -/
theorem card_inter_erase (A B : Finset (List Token)) :
    (A.erase [] ∩ B.erase []).card = (A ∩ B).card - if [] ∈ A ∧ [] ∈ B then 1 else 0 := by
  rw [Finset.erase_inter, Finset.inter_erase, Finset.erase_idem, Finset.card_erase_eq_ite]
  simp only [Finset.mem_inter]
  split <;> rfl

/-- The union is smaller by one without the empty template if one of the sets has it. -/
theorem card_union_erase (A B : Finset (List Token)) :
    (A.erase [] ∪ B.erase []).card = (A ∪ B).card - if [] ∈ A ∨ [] ∈ B then 1 else 0 := by
  rw [← Finset.erase_union_distrib, Finset.card_erase_eq_ite]
  simp only [Finset.mem_union]
  split <;> rfl

theorem contains_empty_eq (s : OrderedSet Template) : s.contains .empty = decide ([] ∈ s.forms) := by
  rw [Bool.eq_iff_iff, contains_iff_mem_forms, decide_eq_true_iff]
  rfl

theorem toNat_decide (p : Prop) [Decidable p] : (decide p).toNat = if p then 1 else 0 := by
  by_cases h : p <;> simp [h]

theorem shared_eq_card (s t : OrderedSet Template) :
    shared s t = (s.forms.erase [] ∩ t.forms.erase []).card := by
  rw [shared, sharedWith_eq_card, contains_empty_eq, contains_empty_eq, ← Bool.decide_and, toNat_decide,
    card_inter_erase]

theorem union_eq_card (s t : OrderedSet Template) :
    union s t = (s.forms.erase [] ∪ t.forms.erase []).card := by
  rw [union, unionSize_eq_card, contains_empty_eq, contains_empty_eq, ← Bool.decide_or, toNat_decide,
    card_union_erase]

/-- Similarity does not depend on which of the two sets comes first. -/
theorem similar_comm (threshold : Float) (s t : OrderedSet Template) :
    similar threshold s t = similar threshold t s := by
  have hshared : shared s t = shared t s := by rw [shared_eq_card, shared_eq_card, Finset.inter_comm]
  have hunion : union s t = union t s := by rw [union_eq_card, union_eq_card, Finset.union_comm]
  rw [similar, similar, hshared, hunion, sameMembers_comm]

theorem forms_erase_empty (s : OrderedSet Template) : (s.erase .empty).forms = s.forms.erase [] := by
  have hempty (a : Template) : (!(a == .empty)) = true ↔ a.form ≠ [] := by
    rw [Bool.not_eq_true', ← Bool.not_eq_true, Template.beq_iff]
    rfl
  ext form
  simp only [forms, erase, toList_filter, List.mem_toFinset, List.mem_map, List.mem_filter, hempty,
    Finset.mem_erase]
  constructor
  · rintro ⟨a, ⟨ha, hne⟩, rfl⟩
    exact ⟨hne, a, ha, rfl⟩
  · rintro ⟨hne, a, ha, rfl⟩
    exact ⟨a, ⟨ha, hne⟩, rfl⟩

/-- Below a threshold of 1 the empty template is not looked at if there is another one. -/
theorem similar_erase_empty (h : ¬ threshold ≥ 1.0) (hrest : s.forms.erase [] ∪ t.forms.erase [] ≠ ∅) :
    similar threshold (s.erase .empty) (t.erase .empty) = similar threshold s t := by
  have hshared : shared (s.erase .empty) (t.erase .empty) = shared s t := by
    simp only [shared_eq_card, forms_erase_empty, Finset.erase_idem]
  have hunion : union (s.erase .empty) (t.erase .empty) = union s t := by
    simp only [union_eq_card, forms_erase_empty, Finset.erase_idem]
  have hne : union s t ≠ 0 := by
    rwa [union_eq_card, Finset.card_ne_zero, Finset.nonempty_iff_ne_empty]
  rw [similar, similar, if_neg h, if_neg h]
  dsimp only
  rw [hshared, hunion, if_neg hne, if_neg hne]

/-- **The empty template is left out of the union if one set has it.** Below a threshold of 1 two sets
are similar exactly if the ratio of what they share to their union reaches the threshold, where the
shared part is smaller by one if both sets have the empty template, and the union if at least one of
them has it; if nothing is left of the union, the sets have to be equal. So the two numbers are those
of the sets without the empty template. At a threshold of 1 or more the sets have to be equal. -/
theorem similar_iff_overlap (threshold : Float) (first second : OrderedSet Template) :
    let A := first.forms
    let B := second.forms
    let both := if [] ∈ A ∧ [] ∈ B then 1 else 0
    let either := if [] ∈ A ∨ [] ∈ B then 1 else 0
    (similar threshold first second = true ↔
      if threshold ≥ 1.0 then A = B else Overlap threshold A B both either) ∧
    (A ∩ B).card - both = (A.erase [] ∩ B.erase []).card ∧
    (A ∪ B).card - either = (A.erase [] ∪ B.erase []).card := by
  intro A B both either
  refine ⟨?_, (card_inter_erase A B).symm, (card_union_erase A B).symm⟩
  rw [similar, Overlap, ← card_inter_erase, ← card_union_erase, ← shared_eq_card, ← union_eq_card]
  by_cases hexact : threshold ≥ 1.0
  · rw [if_pos hexact, if_pos hexact, sameMembers_iff]
  · rw [if_neg hexact, if_neg hexact]
    dsimp only
    split
    · exact sameMembers_iff
    · exact decide_eq_true_iff

/-- A set and the same set with the empty template are similar though the empty template is half of
their union. -/
theorem similar_ignores_optional :
    let optional : OrderedSet Template := .ofList [.empty, ⟨[.literal "a"]⟩]
    let plain : OrderedSet Template := .ofList [⟨[.literal "a"]⟩]
    let both := if [] ∈ optional.forms ∧ [] ∈ plain.forms then 1 else 0
    (0.9 : Float) < 1.0 ∧ both = 0 ∧ similar 0.9 optional plain = true ∧
      ¬ Overlap 0.9 optional.forms plain.forms both both := by
  decide +kernel

end Similarity

end GrammarInduction
