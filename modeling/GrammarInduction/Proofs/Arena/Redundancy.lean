import GrammarInduction.Proofs.Arena.Covering
import GrammarInduction.Proofs.Arena.Joining
import Mathlib.Algebra.GroupWithZero.Nat
import Mathlib.Algebra.Order.BigOperators.Group.List
import Mathlib.Algebra.Order.Group.Nat

/-!
# Redundant children of a spliced tree

Splicing tests the new children of a node, and puts the children of a redundant one in its place. These
are not tested below the node, so that a redundant child can be left.

* `ComesUnder sets a i e`: the node `e` comes under `i` by splicing; it is `Lifted` if it comes there in
  place of a child.
* `SameSlots a root b`: where a template of `b` equals one of the tree, it has the same slots. A stored
  node then has the very template asked for, and not one with other anonymous slots.
* `Traced`: how the new node of a node stands to it. What is below it comes under some node of the tree,
  and is redundant only if it was lifted (`traced_spliceStep`).
* `splice_eq_self_iff`: a tree without slots in leaves stays the same node exactly if no inner child is
  redundant, since a redundant one makes the paths down fewer (`Shrunk`).
* `splicing_leaves_lifted`: what this comes to for the spliced tree; `splicing_leaves_redundant` has two
  trees in which a redundant child is left.
-/

namespace GrammarInduction.Arena

open Walk

variable {sets : ValueSets} {a b b' : Arena} {i j c d e k root : Nat} {ids images : List Nat}
  {gone : Nat → Bool}

/-! ## Redundant children -/

/-- Whether a node is redundant as a child of another one. -/
def splicesOut (sets : ValueSets) (a : Arena) (i c : Nat) : Bool :=
  isRedundant sets (a.template i) (a.template c)

/-- No inner child of the node is redundant. -/
def Condensed (sets : ValueSets) (a : Arena) (i : Nat) : Prop :=
  ∀ c ∈ a.children i, a.isLeaf c = false → a.splicesOut sets i c = false

theorem throughout_condensed_iff : Throughout (Condensed sets) a i ↔
    ∀ e ∈ a.edges i, a.isLeaf e.2 = false → a.splicesOut sets e.1 e.2 = false := by
  simp only [Prod.forall, mem_arena_edges]
  exact ⟨fun h j c hc => h j hc.1 c hc.2, fun h j hj c hc => h j c ⟨hj, hc⟩⟩

instance : Decidable (Throughout (Condensed sets) a i) :=
  decidable_of_iff _ throughout_condensed_iff.symm

/-- A node that comes under another one: a child that stays, or what comes under a redundant one. -/
inductive ComesUnder (sets : ValueSets) (a : Arena) : Nat → Nat → Prop where
  | stays {i c : Nat} (hc : c ∈ a.children i) (h : a.splicesOut sets i c = false) :
    ComesUnder sets a i c
  | lifted {i c e : Nat} (hc : c ∈ a.children i) (h : a.splicesOut sets i c = true)
    (he : ComesUnder sets a c e) : ComesUnder sets a i e

/-- What comes under a node is a child of it or of a node below it. -/
theorem ComesUnder.exists_parent (h : ComesUnder sets a i e) :
    ∃ k, a.Reaches i k ∧ e ∈ a.children k := by
  induction h with
  | @stays i c hc _ => exact ⟨i, .refl _ _, hc⟩
  | lifted hc _ _ ih =>
    obtain ⟨k, hk, he⟩ := ih
    exact ⟨k, .head hc hk, he⟩

/-- A node that comes under another one in place of a child. -/
def Lifted (sets : ValueSets) (a : Arena) (i e : Nat) : Prop :=
  ∃ c ∈ a.children i, a.splicesOut sets i c = true ∧ ComesUnder sets a c e

/-! ## Templates with the same slots -/

/-- The templates of `b` that equal a template of the tree have the same slots. -/
def SameSlots (a : Arena) (root : Nat) (b : Arena) : Prop :=
  ∀ i, a.Reaches root i → ∀ k, k < b.size → (b.template k == a.template i) = true →
    b.template k = a.template i

theorem sameSlots_iff : a.SameSlots root b ↔ ∀ i ∈ a.descendants root, ∀ k ∈ List.range b.size,
    (b.template k == a.template i) = true → b.template k = a.template i := by
  simp only [SameSlots, mem_descendants, List.mem_range]

instance : Decidable (a.SameSlots root b) := decidable_of_iff _ sameSlots_iff.symm

/-- A node that was stored before, or has the template asked for. -/
theorem lt_or_template_intern (b : Arena) (template : Template) (ids : List Nat)
    (hk : k < (b.intern template ids).1.size) :
    k < b.size ∨ (b.intern template ids).1.template k = template := by
  revert hk
  simp only [intern]
  split
  · exact .inl
  · simp only [push, size, Array.size_push, Arena.template, Nat.lt_succ_iff_lt_or_eq]
    exact fun hk => hk.imp_right fun heq => by simp [heq]

theorem SameSlots.intern (h : a.SameSlots root b) (hb : b.Extends a) (hroot : root < a.size)
    (hi : a.Reaches root i) : a.SameSlots root (b.intern (a.template i) ids).1 := by
  intro j hj k hk heq
  rcases lt_or_template_intern b (a.template i) ids hk with hk | hk
  · rw [(b.extends_intern _ ids).template hk] at heq ⊢
    exact h j hj k hk heq
  · -- its template is the one of `i`, which is a node of `b` too
    have hsize := hi.lt_size hroot
    rw [hk, ← hb.template hsize] at heq ⊢
    exact h j hj i (Nat.lt_of_lt_of_le hsize hb.size_le) heq

/-! ## Where the nodes of a spliced tree come from -/

/-- A node of `b` with the template of a node of `a`, and a leaf if that is one. -/
structure StandsFor (a b : Arena) (e d : Nat) : Prop where
  lt : d < b.size
  template : b.template d = a.template e
  leaf : a.isLeaf e = true → b.isLeaf d = true

theorem StandsFor.of_extends (h : StandsFor a b e d) (hext : b'.Extends b) : StandsFor a b' e d where
  lt := Nat.lt_of_lt_of_le h.lt hext.size_le
  template := by rw [hext.template h.lt, h.template]
  leaf he := by rw [hext.isLeaf h.lt, h.leaf he]

/-- A redundant child of the node stands for one that was lifted. -/
def OnlyLifted (sets : ValueSets) (a : Arena) (root : Nat) (b : Arena) (j : Nat) : Prop :=
  ∀ d ∈ b.children j, b.splicesOut sets j d = true →
    ∃ i e, a.Reaches root i ∧ Lifted sets a i e ∧ StandsFor a b i j ∧ StandsFor a b e d

theorem lasting_onlyLifted : Lasting (OnlyLifted sets a root) := by
  intro b b' j hext hj h d hd hredundant
  rw [hext.children hj] at hd
  rw [splicesOut, hext.template hj, hext.template (Nat.lt_trans (children_lt hd) hj)] at hredundant
  obtain ⟨i, e, hi, hlifted, hij, hed⟩ := h d hd hredundant
  exact ⟨i, e, hi, hlifted, hij.of_extends hext, hed.of_extends hext⟩

/-- The new node `j` of a node `i`: its children stand for what comes under `i`, and what is redundant
at or below it was lifted. -/
structure Traced (sets : ValueSets) (a : Arena) (root : Nat) (b : Arena) (i j : Nat) : Prop where
  standsFor : StandsFor a b i j
  comes : ∀ d ∈ b.children j, ∃ e, ComesUnder sets a i e ∧ StandsFor a b e d
  lifted : Throughout (OnlyLifted sets a root) b j

theorem Traced.of_extends (h : Traced sets a root b i j) (hext : b'.Extends b) :
    Traced sets a root b' i j where
  standsFor := h.standsFor.of_extends hext
  comes d hd := by
    rw [hext.children h.standsFor.lt] at hd
    obtain ⟨e, he, hed⟩ := h.comes d hd
    exact ⟨e, he, hed.of_extends hext⟩
  lifted := h.lifted.of_extends lasting_onlyLifted hext h.standsFor.lt

theorem traced_self (hi : i < a.size) (hleaf : a.isLeaf i = true) : Traced sets a root a i i := by
  have hnone : ∀ d, d ∉ a.children i := fun _ => not_mem_children_of_isLeaf hleaf
  exact ⟨⟨hi, rfl, fun h => h⟩, fun d hd => absurd hd (hnone d),
    throughout_of_isLeaf hleaf fun d hd => absurd hd (hnone d)⟩

theorem spliceStep_eq (sets : ValueSets) (a b : Arena) (i : Nat) (images : List Nat) :
    spliceStep sets a b i images = b.intern (a.template i)
      (b.dissolve (fun c => isRedundant sets (a.template i) (b.template c)) images) := rfl

/-- What a step stores below a node: what is lifted, and children that are not redundant. -/
theorem of_mem_spliced (himages : List.Forall₂ (Traced sets a root b) (a.children i) images)
    (hd : d ∈ b.dissolve (fun c => isRedundant sets (a.template i) (b.template c)) images) :
    Throughout (OnlyLifted sets a root) b d ∧ ∃ e, StandsFor a b e d ∧
      (Lifted sets a i e ∨ e ∈ a.children i ∧ a.splicesOut sets i e = false) := by
  obtain ⟨c, hc, h⟩ := mem_dissolve.1 hd
  obtain ⟨e, he, himage⟩ := exists_of_mem_right himages hc
  rw [himage.standsFor.template] at h
  rcases h with ⟨hgone, hd⟩ | ⟨hstays, rfl⟩
  · obtain ⟨k, hk, hkd⟩ := himage.comes d hd
    exact ⟨himage.lifted.child hd, k, hkd, .inl ⟨e, he, hgone, hk⟩⟩
  · exact ⟨himage.lifted, e, himage.standsFor, .inr ⟨he, hstays⟩⟩

/-- **The new node of an inner node**, over the new nodes of its children. -/
theorem traced_spliceStep (hroot : root < a.size) (hb : b.Extends a) (hslots : a.SameSlots root b)
    (hi : a.Reaches root i) (hinner : a.isLeaf i = false)
    (himages : List.Forall₂ (Traced sets a root b) (a.children i) images) :
    Traced sets a root (spliceStep sets a b i images).1 i (spliceStep sets a b i images).2 := by
  have hsize : ∀ c ∈ images, c < b.size :=
    forall_mem_right himages fun _ _ himage => himage.standsFor.lt
  have hmember := fun d => of_mem_spliced (d := d) himages
  have hmember_lt : ∀ d ∈ b.dissolve (fun c => isRedundant sets (a.template i) (b.template c)) images,
      d < b.size := fun _ hd => lt_of_mem_dissolve hsize hd
  rw [spliceStep_eq]
  generalize b.dissolve (fun c => isRedundant sets (a.template i) (b.template c)) images = ids at *
  have hext := b.extends_intern (a.template i) ids
  have hlt := b.intern_lt_size (a.template i) ids
  have htemplate := hslots.intern hb hroot hi i hi _ hlt (b.intern_same _ _).2
  have hstands : StandsFor a (b.intern (a.template i) ids).1 i (b.intern (a.template i) ids).2 :=
    ⟨hlt, htemplate, fun hleaf => absurd (hleaf.symm.trans hinner) Bool.noConfusion⟩
  have hchildren : ∀ d, d ∈ (b.intern (a.template i) ids).1.children (b.intern (a.template i) ids).2 ↔
      d ∈ ids := fun _ => mem_children_intern hmember_lt
  refine ⟨hstands, fun d hd => ?_, throughout_of_children (fun d hd hredundant => ?_) fun d hd => ?_⟩
  · obtain ⟨-, e, hed, hlifted | ⟨he, hstays⟩⟩ := hmember d ((hchildren d).1 hd)
    · obtain ⟨c, hc, hgone, he⟩ := hlifted
      exact ⟨e, .lifted hc hgone he, hed.of_extends hext⟩
    · exact ⟨e, .stays he hstays, hed.of_extends hext⟩
  · obtain ⟨-, e, hed, hlifted | ⟨he, hstays⟩⟩ := hmember d ((hchildren d).1 hd)
    · exact ⟨i, e, hi, hlifted, hstands, hed.of_extends hext⟩
    · rw [splicesOut, htemplate, (hed.of_extends hext).template] at hredundant
      exact Bool.noConfusion (hredundant.symm.trans hstays)
  · have hd := (hchildren d).1 hd
    exact (hmember d hd).1.of_extends lasting_onlyLifted hext (hmember_lt d hd)

theorem traced_splice (hroot : root < a.size) (hslots : a.SameSlots root a) :
    Traced sets a root (a.splice sets root).1 root (a.splice sets root).2 := by
  refine (rebuild_spec (I := fun b => b.Extends a ∧ a.SameSlots root b) (P := Traced sets a root)
    (fun b ⟨hb, hslots⟩ i hi images himages => ?_) ⟨Extends.refl a, hslots⟩).2
  unfold onInner
  split
  next hleaf =>
    exact ⟨⟨hb, hslots⟩, (traced_self (hi.lt_size hroot) hleaf).of_extends hb, fun _ _ h => h⟩
  next hinner =>
    have hext : (spliceStep sets a b i images).1.Extends b := b.extends_intern _ _
    exact ⟨⟨hext.trans hb, hslots.intern hb hroot hi⟩,
      traced_spliceStep hroot hb hslots hi (Bool.not_eq_true _ ▸ hinner) himages,
      fun _ _ h => h.of_extends hext⟩

/-! ## Paths down -/

/-- The number of paths down from a node, the empty one included. -/
def paths (a : Arena) (i : Nat) : Nat := 1 + ((a.children i).attach.map fun c => a.paths c.1).sum
termination_by i
decreasing_by exact children_lt c.2

theorem paths_eq (a : Arena) (i : Nat) : a.paths i = 1 + ((a.children i).map a.paths).sum := by
  rw [paths, List.map_attach_eq_pmap, List.pmap_eq_map]

theorem Extends.paths (h : b.Extends a) (hi : i < a.size) : b.paths i = a.paths i := by
  induction i using Nat.strongRecOn with
  | ind i ih =>
    rw [paths_eq, paths_eq, h.children hi]
    congr 2
    exact List.map_congr_left fun c hc => ih c (children_lt hc) (Nat.lt_trans (children_lt hc) hi)

/-- A node has no more paths down than the nodes that it is stored with have. -/
theorem paths_intern_le {template : Template} (hids : ∀ c ∈ ids, c < b.size) :
    (b.intern template ids).1.paths (b.intern template ids).2 ≤ 1 + (ids.map b.paths).sum := by
  have hext := b.extends_intern template ids
  have hmem : ∀ d, d ∈ (b.intern template ids).1.children (b.intern template ids).2 ↔ d ∈ ids :=
    fun _ => mem_children_intern hids
  have hold : ((b.intern template ids).1.children (b.intern template ids).2).map
      (b.intern template ids).1.paths =
      ((b.intern template ids).1.children (b.intern template ids).2).map b.paths :=
    List.map_congr_left fun d hd => hext.paths (hids d ((hmem d).1 hd))
  rw [paths_eq, hold]
  -- several of the nodes may be the same child
  obtain ⟨fewer, hperm, hsub⟩ := List.subperm_of_subset
    ((children_pairwise _ _).imp Nat.ne_of_lt) fun d hd => (hmem d).1 hd
  rw [← (hperm.map b.paths).sum_eq]
  exact Nat.add_le_add_left ((hsub.map b.paths).sum_le_sum fun _ _ => Nat.zero_le _) 1

/-- What a node that may be dissolved leaves: all its paths but the empty one. -/
def pathsLeft (b : Arena) (gone : Nat → Bool) (c : Nat) : Nat :=
  if gone c then b.paths c - 1 else b.paths c

theorem pathsLeft_le (b : Arena) (gone : Nat → Bool) (c : Nat) : b.pathsLeft gone c ≤ b.paths c := by
  unfold pathsLeft
  split
  · exact Nat.sub_le _ _
  · exact Nat.le_refl _

theorem pathsLeft_lt (h : gone c = true) : b.pathsLeft gone c < b.paths c := by
  rw [pathsLeft, if_pos h, paths_eq]
  omega

theorem sum_paths_dissolve :
    ((b.dissolve gone ids).map b.paths).sum = (ids.map (b.pathsLeft gone)).sum := by
  have hleft (c : Nat) :
      ((if gone c then b.children c else [c]).map b.paths).sum = b.pathsLeft gone c := by
    unfold pathsLeft
    split
    · rw [paths_eq, Nat.add_sub_cancel_left]
    · simp
  induction ids with
  | nil => rfl
  | cons c ids ih =>
    rw [List.map_cons, List.sum_cons, ← ih, ← hleft, ← List.sum_append, ← List.map_append]
    rfl

/-- Sums of values of which some are smaller, if not all come from what they are compared with. -/
theorem sum_lt_or_forall {Q : Nat → Prop} {f g : Nat → Nat} (hQ : ∀ c, Q c → g c = f c)
    (h : List.Forall₂ (fun c d => g d < f c ∨ d = c ∧ Q c) ids images) :
    (images.map g).sum < (ids.map f).sum ∨ images = ids ∧ ∀ c ∈ ids, Q c := by
  induction h with
  | nil => exact .inr ⟨rfl, by simp⟩
  | @cons c d ids images hcd hrest ih =>
    simp only [List.map_cons, List.sum_cons, List.forall_mem_cons]
    have hle : (images.map g).sum ≤ (ids.map f).sum := by
      rcases ih with hlt | ⟨rfl, hsame⟩
      · exact Nat.le_of_lt hlt
      · rw [List.map_congr_left fun c hc => hQ c (hsame c hc)]
    rcases hcd with hlt | ⟨rfl, hd⟩
    · exact .inl (Nat.add_lt_add_of_lt_of_le hlt hle)
    · rw [hQ d hd]
      exact ih.imp (fun hlt => Nat.add_lt_add_left hlt _) fun ⟨heq, hsame⟩ =>
        ⟨by rw [heq], hd, hsame⟩

/-! ## Trees that are left as they are -/

/-- No child of the node is redundant. -/
def Irredundant (sets : ValueSets) (a : Arena) (i : Nat) : Prop :=
  ∀ c ∈ a.children i, a.splicesOut sets i c = false

/-- Leaves without slots are not redundant. -/
theorem throughout_condensed_iff_irredundant
    (hfree : ∀ l ∈ a.leaves root, (a.template l).hasSlots = false) :
    Throughout (Condensed sets) a root ↔ Throughout (Irredundant sets) a root := by
  refine ⟨fun h i hi c hc => ?_, fun h i hi c hc _ => h i hi c hc⟩
  cases hleaf : a.isLeaf c with
  | false => exact h i hi c hc hleaf
  | true =>
    have hc' := mem_leaves.2 ⟨hi.trans (reaches_of_mem_children hc), hleaf⟩
    exact isRedundant_of_not_hasSlots (hfree c hc')

theorem splice_eq_self (hroot : root < a.size) (h : Throughout (Irredundant sets) a root) :
    a.splice sets root = (a, root) := by
  refine rebuild_onInner_eq_self fun i hi _ => ?_
  have hstays : ∀ c ∈ a.children i, isRedundant sets (a.template i) (a.template c) = false := h i hi
  rw [spliceStep_eq, dissolve_eq_self hstays]
  exact intern_children (hi.lt_size hroot) fun _ => .rfl

/-- The new node `j` of a node `i`: it has fewer paths down, or else it is the node, and no child at or
below it is redundant. -/
structure Shrunk (sets : ValueSets) (a b : Arena) (i j : Nat) : Prop where
  old_lt : i < a.size
  lt : j < b.size
  fewer_or_same : b.paths j < a.paths i ∨ j = i ∧ Throughout (Irredundant sets) a i

theorem Shrunk.of_extends (h : Shrunk sets a b i j) (hext : b'.Extends b) : Shrunk sets a b' i j where
  old_lt := h.old_lt
  lt := Nat.lt_of_lt_of_le h.lt hext.size_le
  fewer_or_same := by rw [hext.paths h.lt]; exact h.fewer_or_same

theorem shrunk_self (hi : i < a.size) (hleaf : a.isLeaf i = true) : Shrunk sets a a i i :=
  ⟨hi, hi, .inr ⟨rfl, throughout_of_isLeaf hleaf fun _ hc =>
    absurd hc (not_mem_children_of_isLeaf hleaf)⟩⟩

/-- **The new node of an inner node**, over the new nodes of its children. -/
theorem shrunk_spliceStep (hb : b.Extends a) (hi : i < a.size)
    (himages : List.Forall₂ (Shrunk sets a b) (a.children i) images) :
    Shrunk sets a (spliceStep sets a b i images).1 i (spliceStep sets a b i images).2 := by
  have hsize : ∀ c ∈ images, c < b.size := forall_mem_right himages fun _ _ himage => himage.lt
  rw [spliceStep_eq]
  generalize hgone : (fun c => isRedundant sets (a.template i) (b.template c)) = gone
  have hsplicesOut : ∀ c, c < a.size → gone c = a.splicesOut sets i c := by
    subst hgone
    exact fun c hc => congrArg (isRedundant sets (a.template i)) (hb.template hc)
  -- a new child leaves fewer paths, or it is the old one and stays
  have hleft : List.Forall₂ (fun c d => b.pathsLeft gone d < a.paths c ∨
      d = c ∧ c < a.size ∧ gone c = false ∧ Throughout (Irredundant sets) a c)
      (a.children i) images := by
    refine himages.imp fun c d h => ?_
    rcases h.fewer_or_same with hlt | ⟨rfl, hirredundant⟩
    · exact .inl (Nat.lt_of_le_of_lt (b.pathsLeft_le gone d) hlt)
    · cases hd : gone d with
      | true => exact .inl (hb.paths h.old_lt ▸ pathsLeft_lt hd)
      | false => exact .inr ⟨rfl, h.old_lt, rfl, hirredundant⟩
  rcases sum_lt_or_forall (fun c ⟨hc, hstays, _⟩ => by
    rw [pathsLeft, hstays, if_neg Bool.false_ne_true, hb.paths hc]) hleft with hlt | ⟨rfl, hsame⟩
  · refine ⟨hi, b.intern_lt_size _ _, .inl ?_⟩
    calc (b.intern (a.template i) (b.dissolve gone images)).1.paths _
      _ ≤ 1 + ((b.dissolve gone images).map b.paths).sum :=
        paths_intern_le fun c hc => lt_of_mem_dissolve hsize hc
      _ < 1 + ((a.children i).map a.paths).sum := by
        rw [sum_paths_dissolve]
        exact Nat.add_lt_add_left hlt 1
      _ = a.paths i := (a.paths_eq i).symm
  · have hsame' : b.intern (a.template i) (b.dissolve gone (a.children i)) = (b, i) := by
      rw [dissolve_eq_self fun c hc => (hsame c hc).2.1, ← hb.template hi, ← hb.children hi]
      exact intern_children (Nat.lt_of_lt_of_le hi hb.size_le) fun _ => .rfl
    rw [hsame']
    refine ⟨hi, Nat.lt_of_lt_of_le hi hb.size_le, .inr ⟨rfl, throughout_of_children (fun c hc => ?_)
      fun c hc => (hsame c hc).2.2⟩⟩
    obtain ⟨hc, hstays, -⟩ := hsame c hc
    rw [← hsplicesOut c hc, hstays]

theorem shrunk_splice (hroot : root < a.size) (sets : ValueSets) :
    (a.splice sets root).1.Extends a ∧
      Shrunk sets a (a.splice sets root).1 root (a.splice sets root).2 :=
  rebuild_onInner_induct (fun b => b) (P := Shrunk sets a) (fun _ _ _ _ h hext => h.of_extends hext)
    (fun _ hi hleaf => shrunk_self (hi.lt_size hroot) hleaf)
    (fun b hb _ hi _ _ himages => ⟨b.extends_intern _ _, shrunk_spliceStep hb (hi.lt_size hroot) himages⟩)
    (Extends.refl a)

/-- **Splicing gives the same node exactly if no child is redundant.** -/
theorem splice_eq_self_iff (hroot : root < a.size) :
    (a.splice sets root).2 = root ↔ Throughout (Irredundant sets) a root := by
  refine ⟨fun heq => ?_, fun h => by rw [splice_eq_self hroot h]⟩
  obtain ⟨hext, h⟩ := shrunk_splice hroot sets
  rcases h.fewer_or_same with hlt | ⟨-, h⟩
  · rw [heq, hext.paths hroot] at hlt
    exact absurd hlt (Nat.lt_irrefl _)
  · exact h

/-! ## The spliced tree -/

/-- **Which redundant children splicing leaves.** If templates of the arena that equal one of the tree
have the same slots, a child is redundant in the spliced tree only if it was lifted, so that none is left
if no inner node is redundant where it is lifted to. If no leaf has slots, splicing again gives the same
node exactly if no redundant inner child is left. -/
theorem splicing_leaves_lifted (sets : ValueSets) (a : Arena) (root : Nat) (hroot : root < a.size) :
    (a.SameSlots root a →
      (∀ j, (a.splice sets root).1.Reaches (a.splice sets root).2 j →
        ∀ d ∈ (a.splice sets root).1.children j, (a.splice sets root).1.splicesOut sets j d = true →
          ∃ i e, a.Reaches root i ∧ Lifted sets a i e ∧
            StandsFor a (a.splice sets root).1 i j ∧ StandsFor a (a.splice sets root).1 e d) ∧
      ((∀ i e, a.Reaches root i → Lifted sets a i e → a.isLeaf e = false →
          a.splicesOut sets i e = false) →
        Throughout (Condensed sets) (a.splice sets root).1 (a.splice sets root).2)) ∧
    ((∀ l ∈ a.leaves root, (a.template l).hasSlots = false) →
      (((a.splice sets root).1.splice sets (a.splice sets root).2).2 = (a.splice sets root).2 ↔
        Throughout (Condensed sets) (a.splice sets root).1 (a.splice sets root).2)) := by
  refine ⟨fun hslots => ⟨(traced_splice hroot hslots).lifted, fun hlifted j hj d hd hinner => ?_⟩,
    fun hfree => ?_⟩
  · by_contra hredundant
    rw [Bool.not_eq_false] at hredundant
    obtain ⟨i, e, hi, he, hij, hed⟩ := (traced_splice hroot hslots).lifted j hj d hd hredundant
    have hinner' : a.isLeaf e = false := by
      by_contra hleaf
      rw [Bool.not_eq_false] at hleaf
      exact Bool.noConfusion ((hed.leaf hleaf).symm.trans hinner)
    rw [splicesOut, hij.template, hed.template] at hredundant
    exact Bool.noConfusion (hredundant.symm.trans (hlifted i e hi he hinner'))
  · have hformal : Slot.Formal fun _ => True := fun _ _ _ h => h
    obtain ⟨hext, himage⟩ := image_splice hformal hroot hfree (fun _ _ _ _ => trivial) sets
    rw [splice_eq_self_iff himage.lt, throughout_condensed_iff_irredundant fun l hl => ?_]
    have hl := (himage.leaves l).1 hl
    rw [hext.template ((mem_leaves.1 hl).1.lt_size hroot), hfree l hl]

/-- Two greetings below "hello" with a slot, which is below two templates one below the other. -/
def helloLines : Arena :=
  let hello := Token.literal "hello"
  let pair := fun first second => (⟨[.slot (.named first), .slot (.named second)]⟩ : Template)
  let (a, world) := empty.leaf ⟨[hello, .literal "world"]⟩
  let (a, moon) := a.leaf ⟨[hello, .literal "moon"]⟩
  let (a, inner) := a.intern ⟨[hello, .slot (.named "whom")]⟩ [world, moon]
  let (a, outer) := a.intern (pair "greeting" "whom") [inner]
  (a.intern (pair "greeting" "rest") [outer]).1

/-- The rest of a line is whom it greets. -/
def restIsWhom : ValueSets :=
  OrderedMap.empty.insert (.named "rest") (.ofList [.ofSlot (.named "whom")])

/-- One of the two templates is spliced out, and "hello" is lifted and not redundant there. -/
theorem splicing_leaves_lifted_of_helloLines :
    4 < helloLines.size ∧ helloLines.SameSlots 4 helloLines ∧
    (∀ l ∈ helloLines.leaves 4, (helloLines.template l).hasSlots = false) ∧
    Lifted restIsWhom helloLines 4 2 ∧
    (helloLines.splice restIsWhom 4).1.children (helloLines.splice restIsWhom 4).2 = [2] ∧
    Throughout (Condensed restIsWhom) (helloLines.splice restIsWhom 4).1
      (helloLines.splice restIsWhom 4).2 ∧
    ((helloLines.splice restIsWhom 4).1.splice restIsWhom (helloLines.splice restIsWhom 4).2).2 =
      (helloLines.splice restIsWhom 4).2 := by
  have hroot : 4 < helloLines.size := by decide +kernel
  have hslots : helloLines.SameSlots 4 helloLines := by decide +kernel
  have hfree : ∀ l ∈ helloLines.leaves 4, (helloLines.template l).hasSlots = false := by decide +kernel
  have hbelow : ∀ i ∈ helloLines.descendants 4, ∀ c ∈ helloLines.children i,
      ∀ k ∈ helloLines.descendants c, ∀ e ∈ helloLines.children k,
        helloLines.splicesOut restIsWhom i e = false := by decide +kernel
  have hlifted : ∀ i e, helloLines.Reaches 4 i → Lifted restIsWhom helloLines i e →
      helloLines.isLeaf e = false → helloLines.splicesOut restIsWhom i e = false := by
    rintro i e hi ⟨c, hc, -, he⟩ -
    obtain ⟨k, hk, he⟩ := he.exists_parent
    exact hbelow i (mem_descendants.2 hi) c hc k (mem_descendants.2 hk) e he
  obtain ⟨hredundant, hagain⟩ := splicing_leaves_lifted restIsWhom helloLines 4 hroot
  have hcondensed := (hredundant hslots).2 hlifted
  have hinner : Lifted restIsWhom helloLines 4 2 :=
    ⟨3, by decide +kernel, by decide +kernel, .stays (by decide +kernel) (by decide +kernel)⟩
  exact ⟨hroot, hslots, hfree, hinner, by decide +kernel, hcondensed, (hagain hfree).2 hcondensed⟩

/-- Two lines below three templates one below the other. -/
def nestedSlots : Arena :=
  let b := Token.literal "b"
  let (a, first) := empty.leaf ⟨[.literal "x", b]⟩
  let (a, second) := a.leaf ⟨[.literal "y", b]⟩
  let (a, inner) := a.intern ⟨[.slot (.named "B"), b]⟩ [first, second]
  let (a, outer) := a.intern ⟨[.slot (.named "A"), b]⟩ [inner]
  (a.intern ⟨[.slot (.named "A"), .slot (.named "B")]⟩ [outer]).1

/-- A slot "A" is a slot "B", and this is "b". -/
def nestedValues : ValueSets :=
  (OrderedMap.empty.insert (.named "A") (.ofList [.ofSlot (.named "B")])).insert (.named "B")
    (.ofList [.ofWords ["b"]])

/-- Two lines with two trees over them. The root of the second tree has the template of the root of the
first, up to the number of its slot. -/
def sharedMarkers : Arena :=
  let y := Token.literal "y"
  let x := Token.literal "x"
  let slot := fun id => Token.slot (.anonymous id)
  let (a, first) := empty.leaf ⟨[.literal "p", y, x]⟩
  let (a, second) := a.leaf ⟨[.literal "q", y, x]⟩
  let (a, inner) := a.intern ⟨[slot 1, y, x]⟩ [first, second]
  let (a, _) := a.intern ⟨[slot 1, x]⟩ [inner]
  let (a, lines) := a.intern ⟨[slot 1, slot 3, y, x]⟩ [first, second]
  let (a, outer) := a.intern ⟨[slot 1, y, x]⟩ [lines]
  (a.intern ⟨[slot 2, x]⟩ [outer]).1

/-- What stands in the slots of the first tree. -/
def markerValues : ValueSets :=
  OrderedMap.empty.insert (.anonymous 1)
    (.ofList [⟨[.slot (.anonymous 1), .literal "y"]⟩, ⟨[.slot (.anonymous 1), .slot (.anonymous 3)]⟩])

/-- **Splicing can leave a redundant child**, though every parent covers its children and no leaf has
slots: one that was lifted, or one below a node that was stored before with another slot. Splicing the
trees again gives other nodes. -/
theorem splicing_leaves_redundant :
    (4 < nestedSlots.size ∧ nestedSlots.Covering 4 ∧
      (∀ l ∈ nestedSlots.leaves 4, (nestedSlots.template l).hasSlots = false) ∧
      ¬ Throughout (Condensed nestedValues) (nestedSlots.splice nestedValues 4).1
        (nestedSlots.splice nestedValues 4).2 ∧
      ((nestedSlots.splice nestedValues 4).1.splice nestedValues (nestedSlots.splice nestedValues 4).2).2 ≠
        (nestedSlots.splice nestedValues 4).2) ∧
    (6 < sharedMarkers.size ∧ sharedMarkers.Covering 6 ∧
      (∀ l ∈ sharedMarkers.leaves 6, (sharedMarkers.template l).hasSlots = false) ∧
      ¬ Throughout (Condensed markerValues) (sharedMarkers.splice markerValues 6).1
        (sharedMarkers.splice markerValues 6).2 ∧
      ((sharedMarkers.splice markerValues 6).1.splice markerValues
        (sharedMarkers.splice markerValues 6).2).2 ≠ (sharedMarkers.splice markerValues 6).2) := by
  constructor
  · exact ⟨by decide +kernel, covering_of_edges (by decide +kernel), by decide +kernel,
      by decide +kernel, by decide +kernel⟩
  · exact ⟨by decide +kernel, covering_of_edges (by decide +kernel), by decide +kernel,
      by decide +kernel, by decide +kernel⟩

end GrammarInduction.Arena
