import GrammarInduction.Proofs.Arena.Collapsing

/-!
# Pruned trees

Pruning takes out children until each has a leaf of its own, one that none of its siblings leads to.

* `Needed nodes`: every member of a list of nodes with their leaves has a leaf that no member in another
  place has. What `keepNeeded` leaves is such a list, whatever the order in which it judges the members
  (`needed_keepNeeded`), and of such a list it takes out nothing (`keepNeeded_of_needed`).
* `Pruned a i`: every child of `i` has a leaf of its own. New nodes are pruned, and the nodes below them
  (`throughout_pruned_prune`).
* `pruning_irredundant`: pruning keeps all leaves, leaves pruned nodes only, and changes nothing the
  second time.
-/

namespace GrammarInduction.Arena

open Walk

variable {a b : Arena} {i l c root : Nat} {images : List Nat} {kept rest nodes : List (Nat × List Nat)}

/-! ## Lists of nodes with their leaves -/

/-- Whether a node has a leaf that none of some others has; each comes with its leaves. -/
def HasOwnLeaf (node : Nat × List Nat) (others : List (Nat × List Nat)) : Prop :=
  ∃ l ∈ node.2, ∀ other ∈ others, l ∉ other.2

/-- Every member has a leaf that no member in another place has. -/
def Needed (nodes : List (Nat × List Nat)) : Prop :=
  ∀ front node back, nodes = front ++ node :: back → HasOwnLeaf node (front ++ back)

theorem HasOwnLeaf.mono {node : Nat × List Nat} {others fewer : List (Nat × List Nat)}
    (h : HasOwnLeaf node others) (hsub : fewer ⊆ others) : HasOwnLeaf node fewer := by
  obtain ⟨l, hl, hown⟩ := h
  exact ⟨l, hl, fun other hother => hown other (hsub hother)⟩

/-- The test of `keepNeeded`. -/
theorem hasOwnLeaf_iff {node : Nat × List Nat} {others : List (Nat × List Nat)} :
    HasOwnLeaf node others ↔ node.2.all (others.flatMap Prod.snd).contains = false := by
  simp [HasOwnLeaf, List.all_eq_false]

/-- **What is kept is needed**: when a node is judged, those that are still there have not got all of its
leaves, and later there are only fewer of them. -/
theorem needed_keepNeeded
    (h : ∀ front node back, kept = front ++ node :: back → HasOwnLeaf node (front ++ back ++ rest)) :
    Needed (keepNeeded kept rest) := by
  have hend := keepNeeded_induct (I := fun kept rest => ∀ front node back,
    kept = front ++ node :: back → HasOwnLeaf node (front ++ back ++ rest)) h
    (fun kept node rest _ h front other back heq => ?_)
    fun kept node rest hneeded h front other back heq => ?_
  · intro front node back heq
    simpa using hend front node back heq
  · refine (h front other back heq).mono ?_
    exact ((List.sublist_cons_self node rest).append_left _).subset
  · rcases List.eq_nil_or_concat' back with rfl | ⟨back, last, rfl⟩
    · -- the node that has just been kept
      obtain ⟨rfl, rfl⟩ : kept = front ∧ node = other := by simpa using heq
      simpa using hasOwnLeaf_iff.2 hneeded
    · rw [← List.cons_append, ← List.append_assoc] at heq
      obtain ⟨rfl, hlast⟩ := List.append_inj' heq rfl
      obtain rfl := List.singleton_inj.1 hlast
      simpa [List.append_assoc] using h front other back rfl

/-- Of nodes that are all needed none is taken out. -/
theorem keepNeeded_of_needed (h : Needed (kept ++ rest)) : keepNeeded kept rest = kept ++ rest := by
  induction rest generalizing kept with
  | nil => simp [keepNeeded]
  | cons node rest ih =>
    have hneeded := hasOwnLeaf_iff.1 (h kept node rest rfl)
    unfold keepNeeded
    dsimp only
    rw [hneeded, if_neg Bool.false_ne_true, ih (by simpa using h), List.append_assoc]
    rfl

/-- Different nodes are needed if each has a leaf that no other node has. -/
theorem needed_of_nodup (hnodup : (nodes.map Prod.fst).Nodup)
    (h : ∀ node ∈ nodes, ∃ l ∈ node.2, ∀ other ∈ nodes, other.1 ≠ node.1 → l ∉ other.2) :
    Needed nodes := by
  rintro front node back rfl
  obtain ⟨l, hl, hown⟩ := h node (by simp)
  refine ⟨l, hl, fun other hother => hown other ?_ ?_⟩
  · simp only [List.mem_append, List.mem_cons] at hother ⊢
    exact hother.imp_right .inr
  · rw [List.map_append, List.map_cons, List.nodup_middle, ← List.map_append, List.nodup_cons] at hnodup
    exact fun heq => hnodup.1 (heq ▸ List.mem_map_of_mem hother)

/-! ## Trees -/

/-- Every child of a node leads to a leaf that no other child leads to. -/
def Pruned (a : Arena) (i : Nat) : Prop :=
  ∀ c ∈ a.children i, ∃ l ∈ a.leaves c, ∀ d ∈ a.children i, d ≠ c → l ∉ a.leaves d

instance (a : Arena) (i : Nat) : Decidable (a.Pruned i) :=
  inferInstanceAs (Decidable (∀ c ∈ a.children i, ∃ l ∈ a.leaves c,
    ∀ d ∈ a.children i, d ≠ c → l ∉ a.leaves d))

theorem lasting_pruned : Lasting Pruned := by
  intro a b i hext hi h c hc
  have hlt : ∀ d ∈ a.children i, d < a.size := fun d hd => Nat.lt_trans (children_lt hd) hi
  rw [hext.children hi] at hc ⊢
  obtain ⟨l, hl, hown⟩ := h c hc
  refine ⟨l, (hext.mem_leaves_iff (hlt c hc)).2 hl, fun d hd hne => ?_⟩
  rw [hext.mem_leaves_iff (hlt d hd)]
  exact hown d hd hne

/-- The nodes that a pruning step judges, in the order in which it does so. -/
theorem mem_judged {p : Nat × List Nat} :
    p ∈ (images.map fun c => (c, b.leaves c)).mergeSort (fun p q => p.2.length ≤ q.2.length) ↔
      p.1 ∈ images ∧ p.2 = b.leaves p.1 := by
  rw [List.mem_mergeSort, List.mem_map]
  constructor
  · rintro ⟨c, hc, rfl⟩
    exact ⟨hc, rfl⟩
  · rintro ⟨hc, hl⟩
    exact ⟨p.1, hc, Prod.ext rfl hl.symm⟩

theorem pruned_pruneStep (himages : ∀ c ∈ images, c < b.size) :
    Pruned (pruneStep a b i images).1 (pruneStep a b i images).2 := by
  unfold pruneStep
  dsimp only
  generalize hsorted : (images.map fun c => (c, b.leaves c)).mergeSort _ = sorted
  have hkept : ∀ p ∈ keepNeeded [] sorted, p.1 < b.size ∧ p.2 = b.leaves p.1 := by
    intro p hp
    obtain ⟨hmem, hl⟩ := mem_judged.1 (hsorted ▸ keepNeeded_subset hp)
    exact ⟨himages _ hmem, hl⟩
  have hids : ∀ c ∈ (keepNeeded [] sorted).map Prod.fst, c < b.size := by
    intro c hc
    obtain ⟨p, hp, rfl⟩ := List.mem_map.1 hc
    exact (hkept p hp).1
  have hext := b.extends_intern (a.template i) ((keepNeeded [] sorted).map Prod.fst)
  have hneeded : Needed (keepNeeded [] sorted) := needed_keepNeeded fun front _ _ h => by simp at h
  intro c hc
  rw [mem_children_intern hids] at hc
  obtain ⟨p, hp, rfl⟩ := List.mem_map.1 hc
  obtain ⟨front, back, heq⟩ := List.append_of_mem hp
  obtain ⟨l, hl, hown⟩ := hneeded front p back heq
  refine ⟨l, ?_, fun d hd hne => ?_⟩
  · rwa [hext.mem_leaves_iff (hkept p hp).1, ← (hkept p hp).2]
  · rw [mem_children_intern hids] at hd
    obtain ⟨q, hq, rfl⟩ := List.mem_map.1 hd
    rw [hext.mem_leaves_iff (hkept q hq).1, ← (hkept q hq).2]
    refine hown q ?_
    rw [heq, List.mem_append, List.mem_cons] at hq
    rw [List.mem_append]
    refine hq.imp_right fun hq => hq.resolve_left ?_
    rintro rfl
    exact hne rfl

/-- **All nodes of a pruned tree are pruned.** -/
theorem throughout_pruned_prune (hroot : root < a.size) :
    (a.prune root).2 < (a.prune root).1.size ∧
      Throughout Pruned (a.prune root).1 (a.prune root).2 := by
  refine (rebuild_onInner_induct (fun b => b) (P := fun b _ j => j < b.size ∧ Throughout Pruned b j)
    (fun b b' _ j h hext => ⟨Nat.lt_of_lt_of_le h.1 hext.size_le, h.2.of_extends lasting_pruned hext h.1⟩)
    (fun i hi hleaf => ⟨hi.lt_size hroot,
      throughout_of_isLeaf hleaf fun c hc => absurd hc (not_mem_children_of_isLeaf hleaf)⟩)
    (fun b _ i _ _ images himages => ⟨b.extends_intern _ _, b.intern_lt_size _ _, ?_⟩)
    (Extends.refl a)).2
  have hbelow := forall_mem_right himages fun _ _ h => h
  refine throughout_of_children (pruned_pruneStep fun c hc => (hbelow c hc).1) fun c hc => ?_
  have hids : ∀ c ∈ (keepNeeded [] ((images.map fun c => (c, b.leaves c)).mergeSort
      fun p q => p.2.length ≤ q.2.length)).map Prod.fst, c ∈ images := by
    intro c hc
    obtain ⟨p, hp, rfl⟩ := List.mem_map.1 hc
    exact (mem_judged.1 (keepNeeded_subset hp)).1
  have hc := (mem_children_intern fun d hd => (hbelow d (hids d hd)).1).1 hc
  have hc := hbelow c (hids c hc)
  exact hc.2.of_extends lasting_pruned (b.extends_intern _ _) hc.1

/-- A pruned tree is left as it is. -/
theorem prune_eq_self (hroot : root < a.size) (h : Throughout Pruned a root) :
    a.prune root = (a, root) := by
  refine rebuild_onInner_eq_self fun i hi _ => ?_
  unfold pruneStep
  dsimp only
  generalize hsorted : ((a.children i).map fun c => (c, a.leaves c)).mergeSort _ = sorted
  have hmem : ∀ p, p ∈ sorted ↔ p.1 ∈ a.children i ∧ p.2 = a.leaves p.1 := fun p =>
    hsorted ▸ mem_judged
  have hnodup : (sorted.map Prod.fst).Nodup := by
    have hperm := (List.mergeSort_perm ((a.children i).map fun c => (c, a.leaves c))
      fun p q => p.2.length ≤ q.2.length).map Prod.fst
    rw [hsorted] at hperm
    refine hperm.nodup_iff.2 ?_
    rw [List.map_map]
    exact List.pairwise_map.2 ((a.children_pairwise i).imp Nat.ne_of_lt)
  have hneeded : Needed ([] ++ sorted) := needed_of_nodup hnodup fun p hp => by
    obtain ⟨hc, hl⟩ := (hmem p).1 hp
    obtain ⟨l, hleaf, hown⟩ := h i hi p.1 hc
    refine ⟨l, hl ▸ hleaf, fun q hq hne => ?_⟩
    obtain ⟨hd, hl⟩ := (hmem q).1 hq
    exact hl ▸ hown q.1 hd hne
  rw [keepNeeded_of_needed hneeded]
  refine intern_children (hi.lt_size hroot) fun c => ?_
  rw [List.nil_append, List.mem_map]
  constructor
  · rintro ⟨p, hp, rfl⟩
    exact ((hmem p).1 hp).1
  · exact fun hc => ⟨(c, a.leaves c), (hmem _).2 ⟨hc, rfl⟩, rfl⟩

/-- **Pruning keeps all leaves, and what is left is needed.** The pruned tree has the leaves of the tree,
each child of a node in it leads to a leaf that no other child of the node leads to, and pruning it once
more gives the same node. -/
theorem pruning_irredundant (a : Arena) (root : Nat) (hroot : root < a.size) :
    (∀ l, l ∈ (a.prune root).1.leaves (a.prune root).2 ↔ l ∈ a.leaves root) ∧
    (∀ i, (a.prune root).1.Reaches (a.prune root).2 i → ∀ c ∈ (a.prune root).1.children i,
      ∃ l ∈ (a.prune root).1.leaves c,
        ∀ d ∈ (a.prune root).1.children i, d ≠ c → l ∉ (a.prune root).1.leaves d) ∧
    (a.prune root).1.prune (a.prune root).2 = a.prune root := by
  have hformal : Slot.Formal fun _ => True := fun _ _ _ h => h
  have himage := (image_prune hformal hroot fun _ _ _ _ => trivial).2
  obtain ⟨hlt, hpruned⟩ := throughout_pruned_prune hroot
  exact ⟨himage.leaves, hpruned, prune_eq_self hlt hpruned⟩

/-- The lines "a b" and "a c" below "a" with a slot, and below the slot above it as well. -/
def repeatedLines : Arena :=
  let (a, first) := empty.leaf ⟨[.literal "a", .literal "b"]⟩
  let (a, second) := a.leaf ⟨[.literal "a", .literal "c"]⟩
  let (a, inner) := a.intern ⟨[.literal "a", .slot (.anonymous 0)]⟩ [first, second]
  (a.intern ⟨[.slot (.anonymous 1)]⟩ [inner, first, second]).1

/-- The root leads to every line twice, and the pruned root does not. -/
theorem pruning_irredundant_of_repeatedLines :
    3 < repeatedLines.size ∧ ¬ repeatedLines.Pruned 3 ∧
    (repeatedLines.prune 3).1.Pruned (repeatedLines.prune 3).2 ∧
    (∀ l, l ∈ (repeatedLines.prune 3).1.leaves (repeatedLines.prune 3).2 ↔
      l ∈ repeatedLines.leaves 3) ∧
    (repeatedLines.prune 3).1.prune (repeatedLines.prune 3).2 = repeatedLines.prune 3 := by
  have hroot : 3 < repeatedLines.size := by decide +kernel
  obtain ⟨hleaves, hpruned, hagain⟩ := pruning_irredundant repeatedLines 3 hroot
  exact ⟨hroot, by decide +kernel, hpruned _ (.refl _ _), hleaves, hagain⟩

end GrammarInduction.Arena
