import GrammarInduction.Arena.Collapse
import GrammarInduction.Arena.Prune
import GrammarInduction.Proofs.Arena.Image

/-!
# Taking inner nodes out

Pruning, splicing and flattening a tree take inner nodes out and keep the leaves: what they give is
an image of the root (`image_prune`, `image_splice`, `image_flatten`).

* A child is pruned if its leaves are all reached through the siblings that stay
  (`mem_keepNeeded`).
* A child without slots is never spliced, so that no leaf without slots is.
* A tree is flattened to the nodes that come first among those that are not too deep
  (`mem_leaves_shallow`); leaves are not.
-/

namespace GrammarInduction.Arena

open Walk

variable {P : Slot → Prop} {a b : Arena} {i l root limit : Nat} {kept rest : List (Nat × List Nat)}

/-! ## Pruning -/

/-- **Induction on the nodes.** What holds before any node is judged holds in the end if it is kept
by giving up a node whose leaves are all found elsewhere, and by keeping a node that has others. -/
theorem keepNeeded_induct {I : List (Nat × List Nat) → List (Nat × List Nat) → Prop}
    (h : I kept rest)
    (drop : ∀ kept node rest, node.2.all ((kept ++ rest).flatMap Prod.snd).contains = true →
      I kept (node :: rest) → I kept rest)
    (keep : ∀ kept node rest, node.2.all ((kept ++ rest).flatMap Prod.snd).contains = false →
      I kept (node :: rest) → I (kept ++ [node]) rest) :
    I (keepNeeded kept rest) [] := by
  induction rest generalizing kept with
  | nil => exact h
  | cons node rest ih =>
    unfold keepNeeded
    dsimp only
    split
    next hall => exact ih (drop kept node rest hall h)
    next hneeded => exact ih (keep kept node rest (Bool.not_eq_true _ ▸ hneeded) h)

/-- Giving up nodes that are not needed gives up no leaf. -/
theorem mem_keepNeeded (kept rest : List (Nat × List Nat)) :
    (∃ p ∈ keepNeeded kept rest, l ∈ p.2) ↔ ∃ p ∈ kept ++ rest, l ∈ p.2 := by
  rw [← List.append_nil (keepNeeded kept rest)]
  refine keepNeeded_induct (I := fun ps qs => (∃ p ∈ ps ++ qs, l ∈ p.2) ↔ ∃ p ∈ kept ++ rest, l ∈ p.2)
    Iff.rfl (fun ps node qs hall h => ?_) (fun ps node qs _ h => ?_)
  · rw [← h]
    constructor
    · rintro ⟨p, hp, hl⟩
      refine ⟨p, ?_, hl⟩
      rw [List.mem_append] at hp ⊢
      exact hp.imp_right (.tail _)
    · rintro ⟨p, hp, hl⟩
      rcases List.mem_append.1 hp with hp | hp
      · exact ⟨p, List.mem_append_left _ hp, hl⟩
      · rcases List.mem_cons.1 hp with rfl | hp
        · have helse := List.all_eq_true.1 hall l hl
          rw [List.contains_iff_mem, List.mem_flatMap] at helse
          exact helse
        · exact ⟨p, List.mem_append_right _ hp, hl⟩
  · rwa [List.append_assoc]

theorem keepNeeded_subset : keepNeeded kept rest ⊆ kept ++ rest := by
  rw [← List.append_nil (keepNeeded kept rest)]
  refine keepNeeded_induct (I := fun ps qs => ps ++ qs ⊆ kept ++ rest) (List.Subset.refl _)
    (fun ps node qs _ h => ?_) (fun ps node qs _ h => ?_)
  · exact List.Subset.trans ((List.sublist_cons_self node qs).append_left ps).subset h
  · rwa [List.append_assoc]

theorem image_prune (hP : Slot.Formal P) (hroot : root < a.size)
    (hslots : ∀ i, a.Reaches root i → (a.template i).Over P) :
    (a.prune root).1.Extends a ∧ Image P a (a.prune root).1 root (a.prune root).2 := by
  refine image_rebuild_onInner (fun b => b) hroot hslots
    (fun b _ i hi hinner images himages => ⟨b.extends_intern _ _, ?_⟩) (Extends.refl a)
  let sorted := (images.map fun c => (c, b.leaves c)).mergeSort fun p q => p.2.length ≤ q.2.length
  have hsorted : ∀ p, p ∈ sorted ↔ ∃ c ∈ images, (c, b.leaves c) = p := by
    intro p
    rw [List.mem_mergeSort, List.mem_map]
  have hids : ∀ c ∈ (keepNeeded [] sorted).map Prod.fst, c ∈ images := by
    intro c hc
    obtain ⟨p, hp, rfl⟩ := List.mem_map.1 hc
    obtain ⟨d, hd, rfl⟩ := (hsorted p).1 (keepNeeded_subset hp)
    exact hd
  refine image_intern hP (hslots i hi) (fun c hc => lt_of_mem_images himages c (hids c hc))
    (fun c hc => over_of_mem_images himages c (hids c hc)) fun l => ?_
  rw [← mem_leaves_of_images himages hinner]
  constructor
  · rintro ⟨c, hc, hl⟩
    exact ⟨c, hids c hc, hl⟩
  · rintro ⟨c, hc, hl⟩
    obtain ⟨p, hp, hl⟩ := (mem_keepNeeded [] sorted).2
      ⟨(c, b.leaves c), (hsorted _).2 ⟨c, hc, rfl⟩, hl⟩
    obtain ⟨d, -, rfl⟩ := (hsorted p).1 (keepNeeded_subset hp)
    exact ⟨d, List.mem_map.2 ⟨_, hp, rfl⟩, hl⟩

/-! ## Splicing -/

theorem isRedundant_of_not_hasSlots {sets : ValueSets} {template child : Template}
    (h : child.hasSlots = false) : isRedundant sets template child = false := by
  simp [isRedundant, Template.slots_eq_nil h]

/-- Where children come in the place of redundant nodes, leaves are lost that are redundant themselves,
and no others. -/
theorem mem_leaves_splice {images : List Nat} {redundant : Nat → Bool} :
    (∃ d ∈ images.flatMap fun c => if redundant c then b.children c else [c], l ∈ b.leaves d) ↔
      ∃ c ∈ images, ¬ (redundant c = true ∧ b.isLeaf c = true) ∧ l ∈ b.leaves c := by
  simp only [List.mem_flatMap]
  constructor
  · rintro ⟨d, ⟨c, hc, hd⟩, hl⟩
    refine ⟨c, hc, ?_⟩
    split at hd
    · have hinner := not_isLeaf_of_mem_children hd
      exact ⟨fun h => Bool.noConfusion (h.2.symm.trans hinner),
        (mem_leaves_of_not_isLeaf hinner).2 ⟨d, hd, hl⟩⟩
    next hr => exact ⟨fun h => hr h.1, List.mem_singleton.1 hd ▸ hl⟩
  · rintro ⟨c, hc, hkept, hl⟩
    cases hr : redundant c with
    | true =>
      have hinner : b.isLeaf c = false := by simpa [hr] using hkept
      obtain ⟨d, hd, hl⟩ := (mem_leaves_of_not_isLeaf hinner).1 hl
      exact ⟨d, ⟨c, hc, by simpa [hr] using hd⟩, hl⟩
    | false => exact ⟨c, ⟨c, hc, by simp [hr]⟩, hl⟩

theorem image_splice (hP : Slot.Formal P) (hroot : root < a.size)
    (hfree : ∀ l ∈ a.leaves root, (a.template l).hasSlots = false)
    (hslots : ∀ i, a.Reaches root i → (a.template i).Over P) (sets : ValueSets) :
    (a.splice sets root).1.Extends a ∧
      Image P a (a.splice sets root).1 root (a.splice sets root).2 := by
  refine image_rebuild_onInner (fun b => b) hroot hslots
    (fun b hb i hi hinner images himages => ⟨b.extends_intern _ _, ?_⟩) (Extends.refl a)
  have hdown : ∀ d ∈ images.flatMap fun c =>
      if isRedundant sets (a.template i) (b.template c) then b.children c else [c],
      ∃ c ∈ images, b.Reaches c d := by
    intro d hd
    obtain ⟨c, hc, hd⟩ := List.mem_flatMap.1 hd
    refine ⟨c, hc, ?_⟩
    split at hd
    · exact reaches_of_mem_children hd
    · exact List.mem_singleton.1 hd ▸ .refl _ _
  have hredundant : ∀ c ∈ images, isRedundant sets (a.template i) (b.template c) = true →
      b.isLeaf c = false := by
    intro c hc hr
    by_contra hleaf
    rw [Bool.not_eq_false] at hleaf
    -- An image that is a leaf is a leaf of the old tree, and has no slots.
    have hold := (mem_leaves_of_images himages hinner).1 ⟨c, hc, (mem_leaves_of_isLeaf hleaf).2 rfl⟩
    obtain ⟨hic, hleaf'⟩ := mem_leaves.1 hold
    have hfree := hfree c (mem_leaves.2 ⟨hi.trans hic, hleaf'⟩)
    rw [← hb.template ((hi.trans hic).lt_size hroot)] at hfree
    rw [isRedundant_of_not_hasSlots hfree] at hr
    cases hr
  refine image_intern hP (hslots i hi) (fun d hd => ?_) (fun d hd k hk => ?_) fun l => ?_
  · obtain ⟨c, hc, hcd⟩ := hdown d hd
    exact hcd.lt_size (lt_of_mem_images himages c hc)
  · obtain ⟨c, hc, hcd⟩ := hdown d hd
    exact over_of_mem_images himages c hc k (hcd.trans hk)
  · rw [mem_leaves_splice, ← mem_leaves_of_images himages hinner]
    refine exists_congr fun c => and_congr_right fun hc => and_iff_right ?_
    rintro ⟨hr, hleaf⟩
    exact Bool.noConfusion (hleaf.symm.trans (hredundant c hc hr))

/-! ## Flattening -/

theorem lookup_depths_of_isLeaf (hi : a.Reaches root i) (hleaf : a.isLeaf i = true) :
    (a.depths root).lookup i = some 0 := by
  have habove : ∀ i, a.Reaches root i → ∀ depths,
      List.Forall₂ (fun i depth => a.isLeaf i = true → depth = 0) (a.children i) depths →
        a.isLeaf i = true → depthAbove depths = 0 := by
    intro i _ depths hdepths hleaf
    rw [isLeaf_iff.1 hleaf, List.forall₂_nil_left_iff] at hdepths
    subst hdepths
    rfl
  obtain ⟨depth, hdepth, hzero⟩ := evaluate_spec habove hi
  rw [depths, hdepth, hzero hleaf]

/-- Whether a node is passed over when a tree is flattened. -/
def isDeep (a : Arena) (root limit i : Nat) : Bool :=
  i == root || limit < ((a.depths root).lookup i).getD 0

/-- The nodes that a walk goes on to when a tree is flattened. -/
def belowDeep (a : Arena) (root limit i : Nat) : List Nat :=
  if a.isDeep root limit i then a.children i else []

theorem mem_shallow : i ∈ a.shallow root limit ↔
    Walk.Reaches (a.belowDeep root limit) root i ∧ a.isDeep root limit i = false := by
  have hdown : ∀ i, ∀ c ∈ a.belowDeep root limit i, id c < id i := by
    intro i c hc
    unfold belowDeep at hc
    split at hc
    · exact children_lt hc
    · simp at hc
  have hshallow : a.shallow root limit = (Walk.preorder (a.belowDeep root limit) (levels root) []
      root).filter fun i => !a.isDeep root limit i := rfl
  have hlevels : root < levels root := Nat.lt_succ_self root
  rw [hshallow, List.mem_filter, mem_preorder hdown hlevels, Bool.not_eq_true']

theorem reaches_of_belowDeep (h : Walk.Reaches (a.belowDeep root limit) root i) :
    a.Reaches root i := by
  apply h.induct (P := a.Reaches root) (.refl _ _)
  intro j hj k hk
  unfold belowDeep at hk
  split at hk
  · exact hj.trans (reaches_of_mem_children hk)
  · simp at hk

/-- Each path down to a leaf meets a node that is not too deep. -/
theorem exists_mem_shallow {j : Nat} (hj : Walk.Reaches (a.belowDeep root limit) root j)
    (hl : a.Reaches j l) (hleaf : a.isLeaf l = true) (hne : l ≠ root) :
    ∃ i ∈ a.shallow root limit, a.Reaches i l := by
  induction j using Nat.strongRecOn with
  | ind j ih =>
    cases hdeep : a.isDeep root limit j with
    | false => exact ⟨j, mem_shallow.2 ⟨hj, hdeep⟩, hl⟩
    | true =>
      rcases reaches_iff_eq_or.1 hl with rfl | ⟨c, hc, hl⟩
      · have hdepth := lookup_depths_of_isLeaf (reaches_of_belowDeep hj) hleaf
        simp [isDeep, hne, hdepth] at hdeep
      · refine ih c (children_lt hc) (hj.trans (reaches_of_mem ?_)) hl
        rwa [belowDeep, if_pos hdeep]

/-- The nodes that a tree is flattened to have the leaves of the root. -/
theorem mem_leaves_shallow (h : a.isLeaf root = false) :
    (∃ i ∈ a.shallow root limit, l ∈ a.leaves i) ↔ l ∈ a.leaves root := by
  constructor
  · rintro ⟨i, hi, hl⟩
    obtain ⟨hil, hleaf⟩ := mem_leaves.1 hl
    exact mem_leaves.2 ⟨(reaches_of_belowDeep (mem_shallow.1 hi).1).trans hil, hleaf⟩
  · intro hl
    obtain ⟨hr, hleaf⟩ := mem_leaves.1 hl
    have hne : l ≠ root := by
      rintro rfl
      simp [h] at hleaf
    obtain ⟨i, hi, hil⟩ := exists_mem_shallow (.refl _ root) hr hleaf hne
    exact ⟨i, hi, mem_leaves.2 ⟨hil, hleaf⟩⟩

theorem image_flatten (hP : Slot.Formal P) (hroot : root < a.size)
    (hslots : ∀ i, a.Reaches root i → (a.template i).Over P) {depth : Nat} (hdepth : depth ≠ 0) :
    (a.flatten root depth).1.Extends a ∧
      Image P a (a.flatten root depth).1 root (a.flatten root depth).2 := by
  obtain ⟨limit, rfl⟩ := Nat.exists_eq_succ_of_ne_zero hdepth
  have hreaches : ∀ i ∈ a.shallow root limit, a.Reaches root i :=
    fun i hi => reaches_of_belowDeep (mem_shallow.1 hi).1
  show (a.intern (a.template root) (a.shallow root limit)).1.Extends a ∧
    Image P a (a.intern (a.template root) (a.shallow root limit)).1 root
      (a.intern (a.template root) (a.shallow root limit)).2
  refine ⟨a.extends_intern _ _, ?_⟩
  cases hleaf : a.isLeaf root with
  | true =>
    have hshallow : a.shallow root limit = [] := List.eq_nil_iff_forall_not_mem.2 fun i hi => by
      have heq := (hreaches i hi).eq_of_isLeaf hleaf
      simpa [heq, isDeep] using (mem_shallow.1 hi).2
    have hsame : a.intern (a.template root) (a.shallow root limit) = (a, root) := by
      refine intern_eq_of_same hroot ?_ BEq.rfl
      rw [hshallow, isLeaf_iff.1 hleaf]
      exact List.eq_nil_iff_forall_not_mem.2 fun c hc => by simp [mem_arrange] at hc
    rw [hsame]
    exact image_self hroot hslots
  | false =>
    exact image_intern hP (hslots root (.refl _ _)) (fun i hi => (hreaches i hi).lt_size hroot)
      (fun i hi k hk => hslots k ((hreaches i hi).trans hk)) fun l => mem_leaves_shallow hleaf

end GrammarInduction.Arena
