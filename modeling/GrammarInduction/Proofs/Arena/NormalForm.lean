import GrammarInduction.Proofs.Arena.Collapsing
import GrammarInduction.Proofs.Arena.Joining

/-!
# Collapsed trees

Where no inner node has the template of a leaf (`SetApart`), collapsing keeps the leaves, and in what it
gives no child has the template of its parent.

* `inner_of_twins`: two nodes with equal templates are inner, so that a leaf is never joined to another
  node.
* `Collapsed`: how the new node of a node stands to it. A step that dissolves and joins new children
  establishes it for its node (`collapsed_collapseStep`); the members that it joins have other templates
  than the node, and their children have other templates than they have.
* `collapse_normal_form`: what this comes to at the root.
-/

namespace GrammarInduction.Arena

open Walk

variable {a b b' : Arena} {i j c d l m n root : Nat} {images members : List Nat}

/-- No inner node at or below a root has the template of a leaf there. -/
def SetApart (a : Arena) (root : Nat) : Prop :=
  ∀ i l, a.Reaches root i → a.Reaches root l → a.isLeaf i = false → a.isLeaf l = true →
    (a.template i == a.template l) = false

theorem setApart_iff : a.SetApart root ↔ ∀ i ∈ a.descendants root, a.isLeaf i = false →
    ∀ l ∈ a.leaves root, (a.template i == a.template l) = false := by
  simp only [SetApart, mem_descendants, mem_leaves]
  constructor
  · exact fun h i hi hinner l ⟨hl, hleaf⟩ => h i l hi hl hinner hleaf
  · exact fun h i l hi hl hinner hleaf => h i hi hinner l ⟨hl, hleaf⟩

instance : Decidable (a.SetApart root) := decidable_of_iff _ setApart_iff.symm

/-- No child has the template of the node. -/
def NoEcho (a : Arena) (i : Nat) : Prop :=
  ∀ c ∈ a.children i, (a.template c == a.template i) = false

theorem lasting_noEcho : Lasting NoEcho := by
  intro a b i hext hi h c hc
  rw [hext.children hi] at hc
  rw [hext.template hi, hext.template (Nat.lt_trans (children_lt hc) hi)]
  exact h c hc

/-- A node that is a leaf, or has the template of an inner node of a tree. -/
def InnerOf (a : Arena) (root : Nat) (b : Arena) (k : Nat) : Prop :=
  b.isLeaf k = false →
    ∃ m, a.Reaches root m ∧ a.isLeaf m = false ∧ (b.template k == a.template m) = true

theorem lasting_innerOf : Lasting (InnerOf a root) := by
  intro b b' k hext hk h hinner
  rw [hext.isLeaf hk] at hinner
  rw [hext.template hk]
  exact h hinner

/-! ## New nodes -/

/-- The new node `j` of a node `i`: over the same leaves, with the template of `i`, with inner nodes that
have templates of inner nodes and differ from their parents, and with children that differ. -/
structure Collapsed (a b : Arena) (root i j : Nat) : Prop where
  lt : j < b.size
  template : (b.template j == a.template i) = true
  leaf : a.isLeaf i = true → j = i
  inner : a.isLeaf i = false → b.isLeaf j = false
  leaves : ∀ l, l ∈ b.leaves j ↔ l ∈ a.leaves i
  innerOf : Throughout (InnerOf a root) b j
  noEcho : Throughout NoEcho b j
  noTwins : b.NoTwins j

theorem Collapsed.of_extends (h : Collapsed a b root i j) (hext : b'.Extends b) :
    Collapsed a b' root i j where
  lt := Nat.lt_of_lt_of_le h.lt hext.size_le
  template := by rw [hext.template h.lt, h.template]
  leaf := h.leaf
  inner hi := by rw [hext.isLeaf h.lt, h.inner hi]
  leaves l := (hext.mem_leaves_iff h.lt).trans (h.leaves l)
  innerOf := h.innerOf.of_extends lasting_innerOf hext h.lt
  noEcho := h.noEcho.of_extends lasting_noEcho hext h.lt
  noTwins := lasting_noTwins hext h.lt h.noTwins

theorem collapsed_self (hroot : root < a.size) (hi : a.Reaches root i) (hleaf : a.isLeaf i = true) :
    Collapsed a a root i i where
  lt := hi.lt_size hroot
  template := BEq.rfl
  leaf _ := rfl
  inner h := absurd (hleaf.symm.trans h) Bool.noConfusion
  leaves _ := .rfl
  innerOf := throughout_of_isLeaf hleaf fun h => absurd (hleaf.symm.trans h) Bool.noConfusion
  noEcho := throughout_of_isLeaf hleaf fun _ hc => absurd hc (not_mem_children_of_isLeaf hleaf)
  noTwins _ hc := absurd hc (not_mem_children_of_isLeaf hleaf)

/-- A node below the new node of one in the tree. -/
def BelowImage (a b : Arena) (root m : Nat) : Prop :=
  ∃ i j, a.Reaches root i ∧ Collapsed a b root i j ∧ b.Reaches j m

/-- A leaf below a new node is a leaf of the tree. -/
theorem BelowImage.leaf (h : BelowImage a b root m) (hb : b.Extends a) (hroot : root < a.size)
    (hm : b.isLeaf m = true) :
    a.Reaches root m ∧ a.isLeaf m = true ∧ b.template m = a.template m := by
  obtain ⟨i, j, hi, himage, hjm⟩ := h
  obtain ⟨him, hleaf⟩ := mem_leaves.1 ((himage.leaves m).1 (mem_leaves.2 ⟨hjm, hm⟩))
  exact ⟨hi.trans him, hleaf, hb.template ((hi.trans him).lt_size hroot)⟩

/-- **Nodes with equal templates below new nodes are inner.** -/
theorem inner_of_twins (hapart : a.SetApart root) (hroot : root < a.size) (hb : b.Extends a)
    (hm : BelowImage a b root m) (hn : BelowImage a b root n) (hne : m ≠ n)
    (htwins : (b.template m == b.template n) = true) : b.isLeaf m = false := by
  by_contra hleaf
  rw [Bool.not_eq_false] at hleaf
  obtain ⟨hrm, hm', htm⟩ := hm.leaf hb hroot hleaf
  rw [htm] at htwins
  cases hn' : b.isLeaf n with
  | true =>
    obtain ⟨hrn, hn', htn⟩ := hn.leaf hb hroot hn'
    rw [htn] at htwins
    have hchildren := (isLeaf_iff.1 hm').trans (isLeaf_iff.1 hn').symm
    exact hne (eq_of_same (hrm.lt_size hroot) (hrn.lt_size hroot) hchildren htwins)
  | false =>
    obtain ⟨i, j, -, himage, hjn⟩ := hn
    obtain ⟨k, hk, hinner, htk⟩ := himage.innerOf n hjn hn'
    have hkm := BEq.trans (BEq.symm htk) (BEq.symm htwins)
    exact Bool.noConfusion (hkm.symm.trans (hapart k m hk hrm hinner hm'))

/-- What is joined of nodes of which equal ones are inner has their leaves. -/
theorem Merged.mem_leaves_iff (h : Merged b members c)
    (htwins : ∀ m ∈ members, ∀ n ∈ members, m ≠ n → (b.template m == b.template n) = true →
      b.isLeaf m = false) :
    l ∈ b.leaves c ↔ ∃ m ∈ members, (b.template m == b.template c) = true ∧ l ∈ b.leaves m := by
  cases h with
  | single hc honly =>
    constructor
    · exact fun hl => ⟨c, hc, BEq.rfl, hl⟩
    · rintro ⟨m, hm, hmc, hl⟩
      exact honly m hm hmc ▸ hl
  | joined hmany hchildren =>
    obtain ⟨m, hm, n, hn, hne, hmc, hnc⟩ := hmany
    -- no member of the group is a leaf, since each differs from one of two others
    have hinner : ∀ k ∈ members, (b.template k == b.template c) = true → b.isLeaf k = false := by
      intro k hk hkc
      rcases eq_or_ne k m with rfl | hkm
      · exact htwins k hk n hn hne (BEq.trans hkc (BEq.symm hnc))
      · exact htwins k hk m hm hkm (BEq.trans hkc (BEq.symm hmc))
    have hc : b.isLeaf c = false := by
      obtain ⟨d, hd⟩ := exists_mem_children (hinner m hm hmc)
      exact not_isLeaf_of_mem_children ((hchildren d).2 ⟨m, hm, hmc, hd⟩)
    rw [mem_leaves_of_not_isLeaf hc]
    constructor
    · rintro ⟨d, hd, hl⟩
      obtain ⟨k, hk, hkc, hd⟩ := (hchildren d).1 hd
      exact ⟨k, hk, hkc, (mem_leaves_of_not_isLeaf (hinner k hk hkc)).2 ⟨d, hd, hl⟩⟩
    · rintro ⟨k, hk, hkc, hl⟩
      obtain ⟨d, hd, hl⟩ := (mem_leaves_of_not_isLeaf (hinner k hk hkc)).1 hl
      exact ⟨d, (hchildren d).2 ⟨k, hk, hkc, hd⟩, hl⟩

/-- The nodes that a step joins: they are below new nodes and have other templates than the node. -/
theorem of_mem_members (hi : a.Reaches root i)
    (himages : List.Forall₂ (Collapsed a b root) (a.children i) images)
    (hm : m ∈ b.dissolve (fun c => b.template c == a.template i) images) :
    BelowImage a b root m ∧ (b.template m == a.template i) = false := by
  obtain ⟨c, hc, h⟩ := mem_dissolve.1 hm
  obtain ⟨d, hd, himage⟩ := exists_of_mem_right himages hc
  have hroot := hi.trans (reaches_of_mem_children hd)
  rcases h with ⟨hgone, hm⟩ | ⟨hstays, rfl⟩
  · refine ⟨⟨d, c, hroot, himage, reaches_of_mem_children hm⟩, ?_⟩
    rw [← himage.noEcho.self m hm]
    exact (BEq.congr_right hgone).symm
  · exact ⟨⟨d, m, hroot, himage, .refl _ _⟩, hstays⟩

/-- Together they have the leaves of the node. -/
theorem mem_leaves_members (hapart : a.SetApart root) (hroot : root < a.size) (hb : b.Extends a)
    (hi : a.Reaches root i) (hinner : a.isLeaf i = false)
    (himages : List.Forall₂ (Collapsed a b root) (a.children i) images) :
    (∃ m ∈ b.dissolve (fun c => b.template c == a.template i) images, l ∈ b.leaves m) ↔
      l ∈ a.leaves i := by
  rw [dissolve, mem_leaves_splice, mem_leaves_of_not_isLeaf hinner]
  constructor
  · rintro ⟨c, hc, -, hl⟩
    obtain ⟨d, hd, himage⟩ := exists_of_mem_right himages hc
    exact ⟨d, hd, (himage.leaves l).1 hl⟩
  · rintro ⟨d, hd, hl⟩
    obtain ⟨c, hc, himage⟩ := exists_of_mem_left himages hd
    refine ⟨c, hc, ?_, (himage.leaves l).2 hl⟩
    -- a leaf with the template of the node would not be set apart from it
    rintro ⟨hgone, hleaf⟩
    have hrc : a.Reaches root d := hi.trans (reaches_of_mem_children hd)
    obtain ⟨hrm, hleaf, htemplate⟩ := BelowImage.leaf ⟨d, c, hrc, himage, .refl _ _⟩ hb hroot hleaf
    rw [htemplate] at hgone
    exact Bool.noConfusion ((BEq.symm hgone).symm.trans (hapart i c hi hrm hinner hleaf))

/-- A child of the new node has the template of a member. -/
theorem Regrouped.exists_member (h : Regrouped b members j) (hc : c ∈ b.children j) :
    ∃ m ∈ members, (b.template m == b.template c) = true := by
  cases h.merged c hc with
  | single hc => exact ⟨c, hc, BEq.rfl⟩
  | joined hmany =>
    obtain ⟨m, hm, -, -, -, hmc, -⟩ := hmany
    exact ⟨m, hm, hmc⟩

/-- The new node has the leaves of the members, if no leaf has a twin among them. -/
theorem Regrouped.mem_leaves_iff (h : Regrouped b members j) (hinner : b.isLeaf j = false)
    (htwins : ∀ m ∈ members, ∀ n ∈ members, m ≠ n → (b.template m == b.template n) = true →
      b.isLeaf m = false) : l ∈ b.leaves j ↔ ∃ m ∈ members, l ∈ b.leaves m := by
  rw [mem_leaves_of_not_isLeaf hinner]
  constructor
  · rintro ⟨c, hc, hl⟩
    obtain ⟨m, hm, -, hl⟩ := ((h.merged c hc).mem_leaves_iff htwins).1 hl
    exact ⟨m, hm, hl⟩
  · rintro ⟨m, hm, hl⟩
    obtain ⟨c, hc, hmc⟩ := h.exists_child m hm
    exact ⟨c, hc, ((h.merged c hc).mem_leaves_iff htwins).2 ⟨m, hm, hmc, hl⟩⟩

/-- A node whose children are members that have all this is the new node. -/
theorem Regrouped.collapsed (h : Regrouped b members j) (hlt : j < b.size)
    (htemplate : (b.template j == a.template i) = true) (hi : a.Reaches root i)
    (hinner : a.isLeaf i = false)
    (hleaves : ∀ l, (∃ m ∈ members, l ∈ b.leaves m) ↔ l ∈ a.leaves i)
    (hother : ∀ m ∈ members, (b.template m == a.template i) = false)
    (htwins : ∀ m ∈ members, ∀ n ∈ members, m ≠ n → (b.template m == b.template n) = true →
      b.isLeaf m = false)
    (hinnerOf : ∀ m ∈ members, Throughout (InnerOf a root) b m)
    (hnoEcho : ∀ m ∈ members, Throughout NoEcho b m) : Collapsed a b root i j := by
  have hinner' : b.isLeaf j = false := by
    obtain ⟨l, hl⟩ := a.exists_mem_leaves i
    obtain ⟨m, hm, -⟩ := (hleaves l).2 hl
    obtain ⟨c, hc, -⟩ := h.exists_child m hm
    exact not_isLeaf_of_mem_children hc
  refine ⟨hlt, htemplate, fun hleaf => absurd (hleaf.symm.trans hinner) Bool.noConfusion,
    fun _ => hinner', fun l => (h.mem_leaves_iff hinner' htwins).trans (hleaves l),
    throughout_of_children (fun _ => ⟨i, hi, hinner, htemplate⟩) ?_,
    throughout_of_children ?_ ?_, h.noTwins⟩
  · intro c hc
    refine (h.merged c hc).throughout hinnerOf fun hchildren hc' => ?_
    obtain ⟨d, hd⟩ := exists_mem_children hc'
    obtain ⟨m, hm, hmc, hd⟩ := (hchildren d).1 hd
    obtain ⟨k, hk, hk', hmk⟩ := (hinnerOf m hm).self (not_isLeaf_of_mem_children hd)
    exact ⟨k, hk, hk', BEq.trans (BEq.symm hmc) hmk⟩
  · intro c hc
    obtain ⟨m, hm, hmc⟩ := h.exists_member hc
    rw [← hother m hm, ← BEq.congr_left hmc]
    exact BEq.congr_right htemplate
  · intro c hc
    refine (h.merged c hc).throughout hnoEcho fun hchildren d hd => ?_
    obtain ⟨m, hm, hmc, hd⟩ := (hchildren d).1 hd
    rw [← (hnoEcho m hm).self d hd]
    exact (BEq.congr_right hmc).symm

/-- **The new node of an inner node**, over the new nodes of its children. -/
theorem collapsed_collapseStep (hapart : a.SetApart root) (hroot : root < a.size) (hb : b.Extends a)
    (hi : a.Reaches root i) (hinner : a.isLeaf i = false)
    (himages : List.Forall₂ (Collapsed a b root) (a.children i) images) :
    Collapsed a (collapseStep a b i images).1 root i (collapseStep a b i images).2 := by
  have hsize : ∀ c ∈ images, c < b.size := forall_mem_right himages fun _ _ himage => himage.lt
  have hext := extends_collapseStep a b i images
  have hlt : ∀ m ∈ b.dissolve (fun c => b.template c == a.template i) images, m < b.size :=
    fun _ hm => lt_of_mem_dissolve hsize hm
  have hmember := fun m => of_mem_members (m := m) hi himages
  refine (regrouped_collapseStep hsize).collapsed (collapseStep_lt a b i images)
    (template_collapseStep a b i images) hi hinner (fun l => ?_) (fun m hm => ?_)
    (fun m hm n hn hne htwins => ?_) (fun m hm => ?_) fun m hm => ?_
  · rw [← mem_leaves_members hapart hroot hb hi hinner himages]
    exact exists_congr fun m => and_congr_right fun hm => hext.mem_leaves_iff (hlt m hm)
  · rw [hext.template (hlt m hm), (hmember m hm).2]
  · rw [hext.template (hlt m hm), hext.template (hlt n hn)] at htwins
    rw [hext.isLeaf (hlt m hm)]
    exact inner_of_twins hapart hroot hb (hmember m hm).1 (hmember n hn).1 hne htwins
  · obtain ⟨_, _, -, himage, hjm⟩ := (hmember m hm).1
    exact (himage.innerOf.of_reaches hjm).of_extends lasting_innerOf hext (hlt m hm)
  · obtain ⟨_, _, -, himage, hjm⟩ := (hmember m hm).1
    exact (himage.noEcho.of_reaches hjm).of_extends lasting_noEcho hext (hlt m hm)

theorem collapsed_collapse (hapart : a.SetApart root) (hroot : root < a.size) :
    (a.collapse root).1.Extends a ∧
      Collapsed a (a.collapse root).1 root root (a.collapse root).2 :=
  rebuild_onInner_induct (fun b => b) (P := fun b => Collapsed a b root)
    (fun _ _ _ _ h hext => h.of_extends hext) (fun _ hi hleaf => collapsed_self hroot hi hleaf)
    (fun b hb i hi hinner images himages => ⟨extends_collapseStep a b i images,
      collapsed_collapseStep hapart hroot hb hi hinner himages⟩)
    (Extends.refl a)

/-! ## Collapsed trees -/

/-- **The normal form of collapsing.** If no inner node has the template of a leaf, the collapsed tree has
the leaves of the tree, and nowhere in it does a child have the template of its parent. -/
theorem collapse_normal_form (a : Arena) (root : Nat) (hroot : root < a.size)
    (hapart : a.SetApart root) :
    (∀ l, l ∈ (a.collapse root).1.leaves (a.collapse root).2 ↔ l ∈ a.leaves root) ∧
    ∀ i, (a.collapse root).1.Reaches (a.collapse root).2 i → ∀ c ∈ (a.collapse root).1.children i,
      ((a.collapse root).1.template c == (a.collapse root).1.template i) = false :=
  have hcollapsed := (collapsed_collapse hapart hroot).2
  ⟨hcollapsed.leaves, hcollapsed.noEcho⟩

/-- Three lines, two of them below "a b" with a slot, and all below a second node with that template. -/
def nestedLines : Arena :=
  let line := fun last => (⟨[.literal "a", .literal "b", .literal last]⟩ : Template)
  let (a, first) := empty.leaf (line "c")
  let (a, second) := a.leaf (line "d")
  let (a, third) := a.leaf (line "e")
  let (a, inner) := a.intern ⟨[.literal "a", .literal "b", .slot (.anonymous 0)]⟩ [first, second]
  (a.intern ⟨[.literal "a", .literal "b", .slot (.anonymous 1)]⟩ [inner, third]).1

/-- The inner node is dissolved in the root. -/
theorem collapse_normal_form_of_nestedLines :
    4 < nestedLines.size ∧ nestedLines.SetApart 4 ∧ nestedLines.children 4 = [2, 3] ∧
    (nestedLines.collapse 4).1.children (nestedLines.collapse 4).2 = [0, 1, 2] ∧
    (∀ l, l ∈ (nestedLines.collapse 4).1.leaves (nestedLines.collapse 4).2 ↔ l ∈ nestedLines.leaves 4) ∧
    (nestedLines.collapse 4).1.NoEcho (nestedLines.collapse 4).2 := by
  have hroot : 4 < nestedLines.size := by decide +kernel
  have hapart : nestedLines.SetApart 4 := by decide +kernel
  obtain ⟨hleaves, hecho⟩ := collapse_normal_form nestedLines 4 hroot hapart
  exact ⟨hroot, hapart, by decide +kernel, by decide +kernel, hleaves, hecho _ (.refl _ _)⟩

end GrammarInduction.Arena
