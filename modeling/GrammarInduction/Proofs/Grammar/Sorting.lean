import GrammarInduction.Proofs.Grammar.Recursion
import GrammarInduction.Proofs.Walk.Worklist

/-!
# The order in which slots are listed

Every rule is listed once (`sortedSlots_perm`): first the rules of the slots that the start leads to,
the nearest ones first, then the others in the order of their definition (`sortedSlots_by_distance`).
The first ones are found by a walk with a queue, the others are what a walk with a stack leaves; that
nothing is lost between them is due to both walks visiting the same slots (`mem_nearestSlots`,
`mem_reachable`).
-/

namespace GrammarInduction.Grammar

open Walk

variable {g : Grammar} {s : Slot}

theorem references_of_not_mem_slots (s : Slot) (hs : s ∉ g.slots) : g.references s = [] :=
  references_of_undefined (eq_false_of_ne_true fun h => hs (isDefined_iff_mem_slots.1 h))

theorem mem_reachable : s ∈ g.reachable ↔ Reaches g.references g.start s :=
  mem_byStack (OrderedMap.nodup_keys g.rules) references_of_not_mem_slots

theorem mem_nearestSlots :
    s ∈ g.nearestSlots ↔ g.isDefined s = true ∧ Reaches g.references g.start s := by
  rw [nearestSlots, List.mem_filter, mem_byQueue references_of_not_mem_slots, and_comm]

theorem mem_unreachableSlots :
    s ∈ g.unreachableSlots ↔ g.isDefined s = true ∧ ¬ Reaches g.references g.start s := by
  simp [unreachableSlots, ← isDefined_iff_mem_slots, mem_reachable]

theorem nodup_nearestSlots (g : Grammar) : g.nearestSlots.Nodup :=
  (nodup_byQueue ..).filter _

theorem pairwise_distance_nearestSlots (g : Grammar) : g.nearestSlots.Pairwise fun s t =>
    distance g.references g.start s ≤ distance g.references g.start t :=
  (pairwise_distance_byQueue ..).filter _

/-- What the walk with a queue does not come to is what the walk with a stack leaves. -/
theorem sortedSlots_eq (g : Grammar) : g.sortedSlots = g.nearestSlots ++ g.unreachableSlots := by
  rw [sortedSlots, unreachableSlots]
  refine congrArg (g.nearestSlots ++ ·) (List.filter_congr fun s hs => congrArg (!·) ?_)
  rw [Bool.eq_iff_iff, List.contains_iff_mem, List.contains_iff_mem, mem_nearestSlots, mem_reachable,
    isDefined_iff_mem_slots, and_iff_right hs]

theorem mem_sortedSlots : s ∈ g.sortedSlots ↔ g.isDefined s = true := by
  rw [sortedSlots_eq, List.mem_append, mem_nearestSlots, mem_unreachableSlots, ← and_or_left,
    and_iff_left (Classical.em _)]

theorem nodup_sortedSlots (g : Grammar) : g.sortedSlots.Nodup := by
  rw [sortedSlots_eq]
  refine List.nodup_append.2 ⟨nodup_nearestSlots g, g.rules.nodup_keys.filter _, ?_⟩
  rintro s hs _ ht rfl
  exact (mem_unreachableSlots.1 ht).2 (mem_nearestSlots.1 hs).2

/-- **Every rule is listed once**, whether or not the start leads to it. -/
theorem sortedSlots_perm (g : Grammar) : g.sortedSlots.Perm g.slots :=
  (List.perm_ext_iff_of_nodup (nodup_sortedSlots g) g.rules.nodup_keys).2 fun _ =>
    mem_sortedSlots.trans isDefined_iff_mem_slots

/-- **Slots are listed by their distance from the start.** Each defined slot is listed once: first those
that the start leads to, none of them after one that is further away, and then those that the start does
not lead to, in the order of their definition. -/
theorem sortedSlots_by_distance (g : Grammar) :
    g.sortedSlots.Nodup ∧ (∀ s, s ∈ g.sortedSlots ↔ g.isDefined s = true) ∧
      ∃ reached, g.sortedSlots = reached ++ g.unreachableSlots ∧
        (∀ s, s ∈ reached ↔ g.isDefined s = true ∧ Reaches g.references g.start s) ∧
        (reached.Pairwise fun s t =>
          distance g.references g.start s ≤ distance g.references g.start t) ∧
        (∀ s, s ∈ g.unreachableSlots ↔ g.isDefined s = true ∧ ¬ Reaches g.references g.start s) ∧
        g.unreachableSlots.Sublist g.slots :=
  ⟨nodup_sortedSlots g, fun _ => mem_sortedSlots, g.nearestSlots, sortedSlots_eq g,
    fun _ => mem_nearestSlots, pairwise_distance_nearestSlots g, fun _ => mem_unreachableSlots,
    List.filter_sublist⟩

end GrammarInduction.Grammar
