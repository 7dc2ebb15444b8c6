import GrammarInduction.Proofs.Arena.Covering
import GrammarInduction.Proofs.Arena.Depth
import GrammarInduction.Proofs.Arena.NormalForm

/-!
# Collapsing again

Joining two children puts their children side by side, and these are not joined any more. So a collapsed
tree can have children with equal templates, one level below where nodes were joined, and collapsing it
again changes it (`collapse_not_idempotent`).

* `collapse_eq_self`: a tree without such children, and without children like their parents, is left as it
  is.
* `TwinFree n a i`: there are none fewer than `n` levels below `i`. One more pass frees one more level
  (`Passed.deeper`); on the level above the leaves there never are any (`TwinFree.throughout`).
* `collapse_idempotent_iff`: when a second pass changes nothing, and after how many passes this is sure.
-/

namespace GrammarInduction.Arena

open Walk

variable {a b b' : Arena} {i j c n root : Nat} {images members : List Nat}
  {groups : List (Template × OrderedSet Nat)}

/-! ## Trees that are left as they are -/

/-- Groups of one are joined to their members. -/
theorem joinGroups_of_single (h : ∀ group ∈ groups, ∃ m, group.2.toList = [m]) :
    joinGroups b groups = (b, groups.flatMap fun group => group.2.toList) := by
  induction groups with
  | nil => rfl
  | cons group groups ih =>
    obtain ⟨⟨m, hm⟩, hrest⟩ := List.forall_mem_cons.1 h
    simp [joinGroups, joinGroup, OrderedSet.only?_eq_some_iff.2 hm, ih hrest, hm]

/-- Of members with different templates each is in a group of its own. -/
theorem Grouped.single (h : Grouped b members groups)
    (hdistinct : ∀ m ∈ members, ∀ n ∈ members, m ≠ n → (b.template m == b.template n) = false)
    {group : Template × OrderedSet Nat} (hgroup : group ∈ groups) : ∃ m, group.2.toList = [m] := by
  obtain ⟨m, rest, hm⟩ := List.exists_cons_of_ne_nil (h.nonempty group hgroup)
  refine ⟨m, hm.trans (congrArg _ (List.eq_nil_iff_forall_not_mem.2 fun n hn => ?_))⟩
  have hnodup := group.2.nodup_toList
  rw [hm, List.nodup_cons] at hnodup
  have hmem : ∀ k ∈ group.2.toList, k ∈ members := fun k hk => (h.mem k).2 ⟨group, hgroup, hk⟩
  have htemplate := h.template group hgroup
  rw [hm] at hmem htemplate
  have hne := hdistinct m (hmem m List.mem_cons_self) n (hmem n (.tail _ hn)) (by rintro rfl; exact hnodup.1 hn)
  have hbeq := BEq.trans (htemplate m List.mem_cons_self) (BEq.symm (htemplate n (.tail _ hn)))
  exact Bool.noConfusion (hbeq.symm.trans hne)

theorem collapseStep_eq_self (hi : i < a.size) (hecho : a.NoEcho i) (htwins : a.NoTwins i) :
    collapseStep a a i (a.children i) = (a, i) := by
  have hgrouped : Grouped a (a.dissolve (fun c => a.template c == a.template i) (a.children i))
      (groupByTemplate a (a.template i) (a.children i)).entries := grouped_groupByTemplate
  rw [dissolve_eq_self hecho] at hgrouped
  have hsingle : ∀ group ∈ (groupByTemplate a (a.template i) (a.children i)).entries,
      ∃ m, group.2.toList = [m] := fun _ hgroup => hgrouped.single htwins hgroup
  simp only [collapseStep, joinGroups_of_single hsingle]
  refine intern_children hi fun c => ?_
  rw [hgrouped.mem, List.mem_flatMap]

/-- **A tree without twins and without children like their parents is left as it is.** -/
theorem collapse_eq_self (hroot : root < a.size) (hecho : Throughout NoEcho a root)
    (htwins : Throughout NoTwins a root) : a.collapse root = (a, root) :=
  rebuild_onInner_eq_self fun i hi _ =>
    collapseStep_eq_self (hi.lt_size hroot) (hecho i hi) (htwins i hi)

/-! ## Levels without twins -/

/-- No two children of a node less than `n` levels down have equal templates. -/
def TwinFree : Nat → Arena → Nat → Prop
  | 0, _, _ => True
  | n + 1, a, i => a.NoTwins i ∧ ∀ c ∈ a.children i, TwinFree n a c

theorem lasting_twinFree (n : Nat) : Lasting (TwinFree n) := by
  induction n with
  | zero => exact fun _ _ _ => trivial
  | succ n ih =>
    intro a b i hext hi h
    refine ⟨lasting_noTwins hext hi h.1, fun c hc => ?_⟩
    rw [hext.children hi] at hc
    exact ih hext (Nat.lt_trans (children_lt hc) hi) (h.2 c hc)

/-- Leaves with equal templates are the same, so that there are no twins among them. -/
theorem noTwins_of_depth_le_one (hi : i < a.size) (hdepth : a.depth i ≤ 1) : a.NoTwins i := by
  have hleaf : ∀ c ∈ a.children i, a.children c = [] := fun c hc =>
    isLeaf_iff.1 (depth_eq_zero_iff.1 (Nat.lt_one_iff.1 (depth_le_iff.1 hdepth c hc)))
  intro c hc d hd hne
  rw [Bool.eq_false_iff]
  intro htwins
  refine hne (eq_of_same ?_ ?_ ((hleaf c hc).trans (hleaf d hd).symm) htwins)
  · exact Nat.lt_trans (children_lt hc) hi
  · exact Nat.lt_trans (children_lt hd) hi

theorem TwinFree.throughout (h : TwinFree n a i) (hi : i < a.size) (hdepth : a.depth i ≤ n + 1) :
    Throughout NoTwins a i := by
  induction n generalizing i with
  | zero =>
    exact fun j hj => noTwins_of_depth_le_one (hj.lt_size hi) (Nat.le_trans hj.depth_le hdepth)
  | succ n ih =>
    refine throughout_of_children h.1 fun c hc => ih (h.2 c hc) (Nat.lt_trans (children_lt hc) hi) ?_
    exact Nat.le_of_lt_succ (depth_le_iff.1 hdepth c hc)

/-! ## One more pass -/

/-- Members with different templates are not joined. -/
theorem Regrouped.mem_children_iff (h : Regrouped b members j)
    (hdistinct : ∀ m ∈ members, ∀ n ∈ members, m ≠ n → (b.template m == b.template n) = false) :
    c ∈ b.children j ↔ c ∈ members := by
  have hsame : ∀ m ∈ members, ∀ n ∈ members, (b.template m == b.template n) = true → m = n :=
    fun m hm n hn heq => by_contra fun hne =>
      Bool.noConfusion (heq.symm.trans (hdistinct m hm n hn hne))
  have hmem : ∀ c ∈ b.children j, c ∈ members := by
    intro c hc
    cases h.merged c hc with
    | single hc => exact hc
    | joined hmany =>
      obtain ⟨m, hm, n, hn, hne, hmc, hnc⟩ := hmany
      exact absurd (hsame m hm n hn (BEq.trans hmc (BEq.symm hnc))) hne
  refine ⟨hmem c, fun hc => ?_⟩
  obtain ⟨d, hd, hcd⟩ := h.exists_child c hc
  rwa [hsame c hc d (hmem d hd) hcd]

/-- The new node `j` of a node `i` in a pass over a tree in which no child is like its parent: the twins
begin one level further down, and only a node without twins below it can be its own new node. -/
structure Passed (a b : Arena) (i j : Nat) : Prop where
  lt : j < b.size
  template : (b.template j == a.template i) = true
  deeper : ∀ n, TwinFree n a i → TwinFree (n + 1) b j
  fixed : j = i → Throughout NoTwins a i

theorem Passed.of_extends (h : Passed a b i j) (hext : b'.Extends b) : Passed a b' i j where
  lt := Nat.lt_of_lt_of_le h.lt hext.size_le
  template := by rw [hext.template h.lt, h.template]
  deeper n hn := lasting_twinFree (n + 1) hext h.lt (h.deeper n hn)
  fixed := h.fixed

theorem passed_self (hi : i < a.size) (hleaf : a.isLeaf i = true) : Passed a a i i := by
  have htwins : a.NoTwins i := fun _ hc => absurd hc (not_mem_children_of_isLeaf hleaf)
  exact ⟨hi, BEq.rfl, fun _ _ => ⟨htwins, fun _ hc => absurd hc (not_mem_children_of_isLeaf hleaf)⟩,
    fun _ => throughout_of_isLeaf hleaf htwins⟩

/-- New nodes of children that differ differ. -/
theorem images_distinct (htwins : a.NoTwins i)
    (himages : List.Forall₂ (Passed a b) (a.children i) images) :
    ∀ m ∈ images, ∀ n ∈ images, m ≠ n → (b.template m == b.template n) = false := by
  have hchildren : (a.children i).Pairwise fun c d => (a.template c == a.template d) = false :=
    (a.children_pairwise i).imp_of_mem fun hc hd hlt => htwins _ hc _ hd (Nat.ne_of_lt hlt)
  have hpairwise : images.Pairwise fun m n => (b.template m == b.template n) = false := by
    refine pairwise_of_forall₂ himages (fun c d m n hcm hdn hcd => ?_) hchildren
    rw [← hcd, BEq.congr_left hcm.template, BEq.congr_right hdn.template]
  have : Std.Symm fun m n => (b.template m == b.template n) = false :=
    ⟨fun m n hmn => BEq.comm.trans hmn⟩
  exact fun m hm n hn hne => hpairwise.forall hm hn hne

/-- A node over the new nodes of the children is the new node. -/
theorem Regrouped.passed (h : Regrouped b images j) (hlt : j < b.size)
    (htemplate : (b.template j == a.template i) = true) (hi : i < a.size) (hb : b.Extends a)
    (himages : List.Forall₂ (Passed a b) (a.children i) images) : Passed a b i j := by
  have hchildren (htwins : a.NoTwins i) (c : Nat) : c ∈ b.children j ↔ c ∈ images :=
    h.mem_children_iff (images_distinct htwins himages)
  refine ⟨hlt, htemplate, fun n hn => ⟨h.noTwins, fun c hc => ?_⟩, fun hfixed => ?_⟩
  · cases n with
    | zero => trivial
    | succ n =>
      rw [hchildren hn.1] at hc
      obtain ⟨d, hd, himage⟩ := exists_of_mem_right himages hc
      exact himage.deeper n (hn.2 d hd)
  · subst hfixed
    have htwins := (hb.noTwins_iff hi).1 h.noTwins
    refine throughout_of_children htwins fun d hd => ?_
    obtain ⟨c, hc, himage⟩ := exists_of_mem_left himages hd
    -- the new node of a child is a child with the same template, and so it is the child
    rw [← hchildren htwins, hb.children hi] at hc
    have hcd : (a.template c == a.template d) = true := by
      rw [← hb.template (Nat.lt_trans (children_lt hc) hi), himage.template]
    refine himage.fixed (by_contra fun hne => ?_)
    exact Bool.noConfusion (hcd.symm.trans (htwins c hc d hd hne))

theorem passed_collapseStep (hecho : a.NoEcho i) (hi : i < a.size) (hb : b.Extends a)
    (himages : List.Forall₂ (Passed a b) (a.children i) images) :
    Passed a (collapseStep a b i images).1 i (collapseStep a b i images).2 := by
  have hsize : ∀ c ∈ images, c < b.size := forall_mem_right himages fun _ _ himage => himage.lt
  have hstays : ∀ c ∈ images, (b.template c == a.template i) = false := by
    intro c hc
    obtain ⟨d, hd, himage⟩ := exists_of_mem_right himages hc
    rw [← hecho d hd, BEq.congr_left himage.template]
  have hext := extends_collapseStep a b i images
  have hregrouped := regrouped_collapseStep (a := a) (i := i) hsize
  rw [dissolve_eq_self hstays] at hregrouped
  exact hregrouped.passed (collapseStep_lt a b i images) (template_collapseStep a b i images) hi
    (hext.trans hb) (himages.imp fun _ _ himage => himage.of_extends hext)

theorem passed_collapse (hroot : root < a.size) (hecho : Throughout NoEcho a root) :
    Passed a (a.collapse root).1 root (a.collapse root).2 :=
  (rebuild_onInner_induct (fun b => b) (P := fun b => Passed a b)
    (fun _ _ _ _ h hext => h.of_extends hext)
    (fun _ hi hleaf => passed_self (hi.lt_size hroot) hleaf)
    (fun b hb i hi _ images himages => ⟨extends_collapseStep a b i images,
      passed_collapseStep (hecho i hi) (hi.lt_size hroot) hb himages⟩)
    (Extends.refl a)).2

/-! ## The depth of a collapsed tree -/

theorem Merged.depth_lt (h : Merged b members c) (hmembers : ∀ m ∈ members, b.depth m < n) :
    b.depth c < n := by
  cases h with
  | single hc => exact hmembers c hc
  | joined hmany hchildren =>
    obtain ⟨m, hm, -⟩ := hmany
    rw [← Nat.le_sub_one_iff_lt (Nat.zero_lt_of_lt (hmembers m hm)), depth_le_iff]
    intro d hd
    obtain ⟨k, hk, -, hd⟩ := (hchildren d).1 hd
    exact Nat.lt_of_lt_of_le (depth_lt_of_mem_children hd) (Nat.le_sub_one_of_lt (hmembers k hk))

theorem depth_collapseStep_le
    (himages : List.Forall₂ (fun c d => d < b.size ∧ b.depth d ≤ a.depth c) (a.children i) images) :
    (collapseStep a b i images).1.depth (collapseStep a b i images).2 ≤ a.depth i := by
  have hdepth : ∀ c ∈ images, c < b.size ∧ b.depth c < a.depth i := by
    intro c hc
    obtain ⟨d, hd, hlt, hle⟩ := exists_of_mem_right himages hc
    exact ⟨hlt, Nat.lt_of_le_of_lt hle (depth_lt_of_mem_children hd)⟩
  have hsize := fun c hc => (hdepth c hc).1
  refine depth_le_iff.2 fun c hc => ((regrouped_collapseStep hsize).merged c hc).depth_lt fun m hm => ?_
  rw [(extends_collapseStep a b i images).depth (lt_of_mem_dissolve hsize hm)]
  obtain ⟨c, hc, ⟨-, hm⟩ | ⟨-, rfl⟩⟩ := mem_dissolve.1 hm
  · exact Nat.lt_trans (depth_lt_of_mem_children hm) (hdepth c hc).2
  · exact (hdepth m hc).2

theorem depth_collapse_le (hroot : root < a.size) :
    (a.collapse root).1.depth (a.collapse root).2 ≤ a.depth root :=
  (rebuild_onInner_induct (fun b => b) (P := fun b i j => j < b.size ∧ b.depth j ≤ a.depth i)
    (fun _ _ _ _ h hext => ⟨Nat.lt_of_lt_of_le h.1 hext.size_le, by rw [hext.depth h.1]; exact h.2⟩)
    (fun _ hi _ => ⟨hi.lt_size hroot, Nat.le_refl _⟩)
    (fun b _ i _ _ images himages => ⟨extends_collapseStep a b i images,
      collapseStep_lt a b i images, depth_collapseStep_le himages⟩)
    (Extends.refl a)).2.2

/-! ## Several passes -/

theorem Collapsed.setApart (h : Collapsed a b root root j) (hb : b.Extends a) (hroot : root < a.size)
    (hapart : a.SetApart root) : b.SetApart j := by
  intro i l hi hl hinner hleaf
  obtain ⟨m, hm, hm', htm⟩ := h.innerOf i hi hinner
  obtain ⟨hl, hleaf⟩ := mem_leaves.1 ((h.leaves l).1 (mem_leaves.2 ⟨hl, hleaf⟩))
  rw [hb.template (hl.lt_size hroot), ← hapart m l hm hl hm' hleaf]
  exact BEq.congr_left htm

/-- A pass over a tree, given with its arena. -/
def pass (tree : Arena × Nat) : Arena × Nat := tree.1.collapse tree.2

/-- What `n + 1` passes over a tree establish. -/
structure Settled (a : Arena) (root n : Nat) (tree : Arena × Nat) : Prop where
  lt : tree.2 < tree.1.size
  setApart : tree.1.SetApart tree.2
  noEcho : Throughout NoEcho tree.1 tree.2
  twinFree : TwinFree (n + 1) tree.1 tree.2
  depth : tree.1.depth tree.2 ≤ a.depth root

theorem settled_collapse (hroot : root < a.size) (hapart : a.SetApart root) :
    Settled a root 0 (a.collapse root) := by
  obtain ⟨hext, h⟩ := collapsed_collapse hapart hroot
  exact ⟨h.lt, h.setApart hext hroot hapart, h.noEcho, ⟨h.noTwins, fun _ _ => trivial⟩,
    depth_collapse_le hroot⟩

/-- **Another pass frees one more level of twins.** -/
theorem Settled.pass {tree : Arena × Nat} (h : Settled a root n tree) :
    Settled a root (n + 1) (pass tree) := by
  have hcollapse := settled_collapse h.lt h.setApart
  exact ⟨hcollapse.lt, hcollapse.setApart, hcollapse.noEcho,
    (passed_collapse h.lt h.noEcho).deeper (n + 1) h.twinFree,
    Nat.le_trans hcollapse.depth h.depth⟩

theorem settled_iterate (hroot : root < a.size) (hapart : a.SetApart root) (n : Nat) :
    Settled a root n (pass^[n + 1] (a, root)) := by
  induction n with
  | zero => exact settled_collapse hroot hapart
  | succ n ih =>
    rw [Function.iterate_succ_apply']
    exact ih.pass

/-- **When collapsing again changes nothing.** If no inner node has the template of a leaf, a second pass
gives the same node exactly if no two children of a node of the collapsed tree have equal templates, and
a pass after `n` others changes nothing if the tree is no deeper than `n + 1`. -/
theorem collapse_idempotent_iff (a : Arena) (root : Nat) (hroot : root < a.size)
    (hapart : a.SetApart root) :
    (((a.collapse root).1.collapse (a.collapse root).2).2 = (a.collapse root).2 ↔
      Throughout NoTwins (a.collapse root).1 (a.collapse root).2) ∧
    ∀ n, n ≠ 0 → a.depth root ≤ n + 1 → pass (pass^[n] (a, root)) = pass^[n] (a, root) := by
  have hcollapse := settled_collapse hroot hapart
  refine ⟨⟨(passed_collapse hcollapse.lt hcollapse.noEcho).fixed, fun htwins => ?_⟩, fun n hn hdepth => ?_⟩
  · rw [collapse_eq_self hcollapse.lt hcollapse.noEcho htwins]
  · obtain ⟨n, rfl⟩ := Nat.exists_eq_succ_of_ne_zero hn
    have h := settled_iterate hroot hapart n
    exact collapse_eq_self h.lt h.noEcho (h.twinFree.throughout h.lt (Nat.le_trans h.depth hdepth))

/-- Two nodes with equal templates, and below each a line and a node over it; these two have equal
templates as well. -/
def cousins : Arena :=
  let below := fun name => (⟨[.literal "a", .slot (.named name)]⟩ : Template)
  let inner : Template := ⟨[.literal "a", .literal "b", .slot (.named "P")]⟩
  let (a, first) := empty.leaf (.ofWords ["a", "b", "c"])
  let (a, second) := a.leaf (.ofWords ["a", "b", "d"])
  let (a, overFirst) := a.intern inner [first]
  let (a, overSecond) := a.intern inner [second]
  let (a, left) := a.intern (below "U") [overFirst]
  let (a, right) := a.intern (below "U") [overSecond]
  (a.intern ⟨[.slot (.named "R")]⟩ [left, right]).1

/-- **Collapsing again can change a tree**: the cousins become siblings, and are joined in the second
pass. -/
theorem collapse_not_idempotent :
    6 < cousins.size ∧ cousins.Covering 6 ∧ cousins.SetApart 6 ∧
    ((cousins.collapse 6).1.collapse (cousins.collapse 6).2).2 ≠ (cousins.collapse 6).2 :=
  ⟨by decide +kernel, covering_of_edges (by decide +kernel), by decide +kernel, by decide +kernel⟩

/-- The tree of the cousins is three levels deep, so that two passes are enough. -/
theorem collapse_idempotent_iff_of_cousins :
    6 < cousins.size ∧ cousins.SetApart 6 ∧ cousins.depth 6 = 3 ∧
    ¬ Throughout NoTwins (cousins.collapse 6).1 (cousins.collapse 6).2 ∧
    pass (pass^[2] (cousins, 6)) = pass^[2] (cousins, 6) := by
  have hroot : 6 < cousins.size := by decide +kernel
  have hapart : cousins.SetApart 6 := by decide +kernel
  have hdepth : cousins.depth 6 = 3 := by decide +kernel
  obtain ⟨htwins, hpasses⟩ := collapse_idempotent_iff cousins 6 hroot hapart
  exact ⟨hroot, hapart, hdepth, fun h => absurd (htwins.2 h) (by decide +kernel),
    hpasses 2 (by decide) (by rw [hdepth])⟩

end GrammarInduction.Arena
