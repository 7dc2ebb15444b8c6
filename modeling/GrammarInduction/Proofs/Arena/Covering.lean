import GrammarInduction.Proofs.Arena.Collapsing
import GrammarInduction.Proofs.Arena.Growth
import GrammarInduction.Proofs.Template.Covering

/-!
# Trees that cover what is below

A tree is *covering* if on each of its edges the template of the parent covers that of the child; by
transitivity a node covers all that is below it (`Covering.covers`). Every transformation of trees that
takes its templates from the tree keeps this (`covering_transform`).

* `Stands b t j`: the node `j` covers what is below it and has the shape of the template `t`. New
  nodes stand for the templates that they are made of; covering looks at shapes alone, so that neither
  new names nor an equal node stored earlier make a difference.
* `Fits b t c`: the node `c` may become a child of a node with the template `t`. Children of a node
  that fits do as well (`Fits.child`), which is the reason that nodes may be dissolved in parents.
* `stands_intern`: a node stored over nodes that fit stands for its template. From it and the rules for
  rebuilding there is one lemma for each transformation.
-/

namespace GrammarInduction.Arena

open Walk

variable {a b b' : Arena} {i j c d root : Nat} {t u : Template} {ids images : List Nat}

/-- On every edge at and below a node the template of the parent covers that of the child. -/
def Covering (a : Arena) (i : Nat) : Prop :=
  ∀ j, a.Reaches i j → ∀ c ∈ a.children j, (a.template j).covers (a.template c) = true

theorem Covering.of_reaches (h : a.Covering i) (hij : a.Reaches i j) : a.Covering j :=
  fun k hk => h k (hij.trans hk)

/-- A node covers all that is below it. -/
theorem Covering.covers (h : a.Covering i) (hij : a.Reaches i j) :
    (a.template i).covers (a.template j) = true := by
  have hboth : a.Reaches i j ∧ (a.template i).covers (a.template j) = true := by
    apply hij.induct (P := fun k => a.Reaches i k ∧ (a.template i).covers (a.template k) = true)
    · exact ⟨.refl _ _, Template.covers_refl _⟩
    · rintro k ⟨hk, hcovers⟩ c hc
      exact ⟨hk.trans (reaches_of_mem_children hc), Template.covers_trans hcovers (h k hk c hc)⟩
  exact hboth.2

theorem Covering.of_extends (h : a.Covering i) (hext : b.Extends a) (hi : i < a.size) :
    b.Covering i := by
  intro j hj c hc
  rw [hext.reaches_iff hi] at hj
  have hsize := hj.lt_size hi
  rw [hext.children hsize] at hc
  rw [hext.template hsize, hext.template (Nat.lt_trans (children_lt hc) hsize)]
  exact h j hj c hc

/-- Covering can be read off the edges of the tree. -/
theorem covering_of_edges
    (h : ∀ e ∈ a.edges root, (a.template e.1).covers (a.template e.2) = true) : a.Covering root :=
  fun j hj c hc => h (j, c) (mem_arena_edges.2 ⟨hj, hc⟩)

/-! ## New nodes and their children -/

/-- A node with the shape of a template that covers what is below it. -/
structure Stands (b : Arena) (t : Template) (j : Nat) : Prop where
  lt : j < b.size
  shape : (b.template j).shape = t.shape
  covering : b.Covering j

/-- A node that covers what is below it, and that a template covers. -/
structure Fits (b : Arena) (t : Template) (c : Nat) : Prop where
  lt : c < b.size
  covers : t.covers (b.template c) = true
  covering : b.Covering c

theorem Stands.of_extends (h : Stands b t j) (hext : b'.Extends b) : Stands b' t j where
  lt := Nat.lt_of_lt_of_le h.lt hext.size_le
  shape := by rw [hext.template h.lt, h.shape]
  covering := h.covering.of_extends hext h.lt

theorem Fits.of_extends (h : Fits b t c) (hext : b'.Extends b) : Fits b' t c where
  lt := Nat.lt_of_lt_of_le h.lt hext.size_le
  covers := by rw [hext.template h.lt, h.covers]
  covering := h.covering.of_extends hext h.lt

theorem Stands.fits (h : Stands b t j) (hcovers : u.covers t = true) : Fits b u j where
  lt := h.lt
  covers := by rw [Template.covers_congr rfl h.shape, hcovers]
  covering := h.covering

theorem Fits.child (h : Fits b t c) (hd : d ∈ b.children c) : Fits b t d where
  lt := Nat.lt_trans (children_lt hd) h.lt
  covers := Template.covers_trans h.covers (h.covering c (.refl _ _) d hd)
  covering := h.covering.of_reaches (reaches_of_mem_children hd)

theorem stands_self (h : a.Covering root) (hroot : root < a.size) (hi : a.Reaches root i) :
    Stands a (a.template i) i :=
  ⟨hi.lt_size hroot, rfl, h.of_reaches hi⟩

/-- A node stored over nodes that fit. -/
theorem stands_intern (h : ∀ c ∈ ids, Fits b t c) (hshape : u.shape = t.shape) :
    Stands (b.intern u ids).1 t (b.intern u ids).2 := by
  have hext := b.extends_intern u ids
  have hnode := Template.shape_eq_of_beq (b.intern_same u ids).2
  have hlt : ∀ c ∈ ids, c < b.size := fun c hc => (h c hc).lt
  refine ⟨b.intern_lt_size u ids, hnode.trans hshape, fun j hj c hc => ?_⟩
  rcases (reaches_intern_iff hlt).1 hj with rfl | ⟨d, hd, hdj⟩
  · rw [mem_children_intern hlt] at hc
    rw [hext.template (hlt c hc), Template.covers_congr (hnode.trans hshape) rfl]
    exact (h c hc).covers
  · have hreaches := (hext.reaches_iff (hlt d hd)).2 hdj
    exact (h d hd).covering.of_extends hext (hlt d hd) j hreaches c hc

/-- What stands for the children of a node fits under the node. -/
theorem fits_of_images (h : a.Covering root) (hi : a.Reaches root i)
    (himages : List.Forall₂ (fun c => Stands b (a.template c)) (a.children i) images) :
    ∀ c ∈ images, Fits b (a.template i) c := by
  intro c hc
  obtain ⟨d, hd, hstands⟩ := exists_of_mem_right himages hc
  exact hstands.fits (h i hi d hd)

section Rebuilding

variable {step : Arena → Nat → List Nat → Arena × Nat}

/-- Rebuilding gives a node that stands for the root if each step gives one that stands for the node,
given new children that fit. -/
theorem stands_rebuild (h : a.Covering root)
    (hext : ∀ b i images, (step b i images).1.Extends b)
    (hstep : ∀ b i images, (∀ c ∈ images, Fits b (a.template i) c) →
      Stands (step b i images).1 (a.template i) (step b i images).2) :
    Stands (a.rebuild step a root).1 (a.template root) (a.rebuild step a root).2 :=
  (rebuild_induct (fun b => b) (P := fun b i => Stands b (a.template i))
    (fun _ _ _ _ h hext => h.of_extends hext)
    (fun b _ i hi images himages =>
      ⟨hext b i images, hstep b i images (fits_of_images h hi himages)⟩)
    (Extends.refl a)).2

/-- The same for steps that leave leaves alone. -/
theorem stands_rebuild_onInner (h : a.Covering root) (hroot : root < a.size)
    (hext : ∀ b i images, (step b i images).1.Extends b)
    (hstep : ∀ b i images, (∀ c ∈ images, Fits b (a.template i) c) →
      Stands (step b i images).1 (a.template i) (step b i images).2) :
    Stands (a.rebuild (a.onInner step) a root).1 (a.template root)
      (a.rebuild (a.onInner step) a root).2 :=
  (rebuild_onInner_induct (fun b => b) (P := fun b i => Stands b (a.template i))
    (fun _ _ _ _ h hext => h.of_extends hext) (fun _ hi _ => stands_self h hroot hi)
    (fun b _ i hi _ images himages =>
      ⟨hext b i images, hstep b i images (fits_of_images h hi himages)⟩)
    (Extends.refl a)).2

end Rebuilding

/-! ## Collapsing -/

/-- A group of nodes that fit, each with the template of the group. -/
structure GroupFits (b : Arena) (t : Template) (group : Template × OrderedSet Nat) : Prop where
  covers : t.covers group.1 = true
  fits : ∀ c ∈ group.2.toList, Fits b t c
  template : ∀ c ∈ group.2.toList, (b.template c == group.1) = true

theorem GroupFits.of_extends {group : Template × OrderedSet Nat} (h : GroupFits b t group)
    (hext : b'.Extends b) : GroupFits b' t group where
  covers := h.covers
  fits c hc := (h.fits c hc).of_extends hext
  template c hc := by rw [hext.template (h.fits c hc).lt, h.template c hc]

/-- A node joins the group of its template. -/
theorem GroupFits.insert {key : Template} {group : OrderedSet Nat} (h : GroupFits b t (key, group))
    (hc : Fits b t c) (hkey : (key == b.template c) = true) :
    GroupFits b t (key, group.insert c) where
  covers := h.covers
  fits d hd := by
    rcases OrderedSet.mem_insert.1 hd with hd | rfl
    · exact h.fits d hd
    · exact hc
  template d hd := by
    rcases OrderedSet.mem_insert.1 hd with hd | rfl
    · exact h.template d hd
    · exact BEq.symm hkey

theorem groupFits_singleton (hc : Fits b t c) :
    GroupFits b t (b.template c, OrderedSet.empty.insert c) where
  covers := hc.covers
  fits d hd := by
    rcases OrderedSet.mem_insert.1 hd with hd | rfl
    · cases hd
    · exact hc
  template d hd := by
    rcases OrderedSet.mem_insert.1 hd with hd | rfl
    · cases hd
    · exact BEq.rfl

theorem groupFits_groupByTemplate (h : ∀ c ∈ images, Fits b t c) :
    ∀ group ∈ (groupByTemplate b u images).entries, GroupFits b t group := by
  have hlifted : ∀ c ∈ images.flatMap fun c => if b.template c == u then b.children c else [c],
      Fits b t c := by
    intro d hd
    obtain ⟨c, hc, hd⟩ := List.mem_flatMap.1 hd
    split at hd
    · exact (h c hc).child hd
    · exact List.mem_singleton.1 hd ▸ h c hc
  unfold groupByTemplate
  refine List.foldlRecOn (motive := fun groups : OrderedMap Template (OrderedSet Nat) =>
    ∀ group ∈ groups.entries, GroupFits b t group) _ _ (fun _ hgroup => nomatch hgroup) ?_
  intro groups hgroups c hc
  refine OrderedMap.forall_updateEntries hgroups (groupFits_singleton (hlifted c hc)) ?_
  exact fun key group hkey hgroup => hgroup.insert (hlifted c hc) hkey

/-- The members of a group are joined to a node that fits. -/
theorem fits_joinGroup {group : Template × OrderedSet Nat} (h : GroupFits b t group) :
    Fits (joinGroup b group.1 group.2).1 t (joinGroup b group.1 group.2).2 := by
  unfold joinGroup
  split
  next c honly =>
    refine h.fits c ?_
    rw [OrderedSet.only?_eq_some_iff.1 honly]
    exact List.mem_singleton_self c
  · refine (stands_intern (t := group.1) (fun d hd => ?_) rfl).fits h.covers
    -- the template of the group covers the children of each member, being equal to its template
    obtain ⟨c, hc, hd⟩ := List.mem_flatMap.1 hd
    have hchild := (h.fits c hc).child hd
    refine ⟨hchild.lt, ?_, hchild.covering⟩
    rw [← Template.covers_congr_beq (h.template c hc) BEq.rfl]
    exact (h.fits c hc).covering c (.refl _ _) d hd

theorem fits_joinGroups {groups : List (Template × OrderedSet Nat)}
    (h : ∀ group ∈ groups, GroupFits b t group) :
    ∀ c ∈ (joinGroups b groups).2, Fits (joinGroups b groups).1 t c := by
  induction groups generalizing b with
  | nil => exact fun c hc => nomatch hc
  | cons group groups ih =>
    obtain ⟨hfirst, hrest⟩ := List.forall_mem_cons.1 h
    have hext := extends_joinGroup b group.1 group.2
    intro c hc
    rcases List.mem_cons.1 hc with rfl | hc
    · exact (fits_joinGroup hfirst).of_extends (extends_joinGroups _ groups)
    · exact ih (fun g hg => (hrest g hg).of_extends hext) c hc

theorem stands_collapse (h : a.Covering root) (hroot : root < a.size) :
    Stands (a.collapse root).1 (a.template root) (a.collapse root).2 := by
  refine stands_rebuild_onInner h hroot (extends_collapseStep a) fun b i images himages => ?_
  have hgroups := groupFits_groupByTemplate (u := a.template i) himages
  exact stands_intern (fits_joinGroups hgroups) rfl

/-! ## Splicing and pruning -/

theorem stands_splice (h : a.Covering root) (hroot : root < a.size) (sets : ValueSets) :
    Stands (a.splice sets root).1 (a.template root) (a.splice sets root).2 := by
  refine stands_rebuild_onInner h hroot (fun b _ _ => b.extends_intern _ _)
    fun b i images himages => stands_intern (fun d hd => ?_) rfl
  obtain ⟨c, hc, hd⟩ := List.mem_flatMap.1 hd
  split at hd
  · exact (himages c hc).child hd
  · exact List.mem_singleton.1 hd ▸ himages c hc

theorem stands_prune (h : a.Covering root) (hroot : root < a.size) :
    Stands (a.prune root).1 (a.template root) (a.prune root).2 := by
  refine stands_rebuild_onInner h hroot (fun b _ _ => b.extends_intern _ _)
    fun b i images himages => stands_intern (fun c hc => ?_) rfl
  obtain ⟨p, hp, rfl⟩ := List.mem_map.1 hc
  obtain ⟨d, hd, rfl⟩ := List.mem_map.1 (List.mem_mergeSort.1 (keepNeeded_subset hp))
  exact himages d hd

/-! ## Renaming -/

theorem stands_rename (h : a.Covering root) (hroot : root < a.size)
    (names : OrderedMap Slot Slot) :
    Stands (a.rename names root).1 (a.template root) (a.rename names root).2 := by
  unfold rename
  split
  · exact stands_self h hroot (.refl _ _)
  · exact stands_rebuild h (fun b _ _ => b.extends_intern _ _)
      fun b i images himages => stands_intern himages (Template.shape_rename names _)

/-! ## Flattening -/

theorem stands_flatten (h : a.Covering root) (hroot : root < a.size) (depth : Nat) :
    Stands (a.flatten root depth).1 (a.template root) (a.flatten root depth).2 := by
  refine stands_intern (fun c hc => ?_) rfl
  split at hc
  · cases hc
  · have hreaches := reaches_of_belowDeep (mem_shallow.1 hc).1
    exact ⟨hreaches.lt_size hroot, h.covers hreaches, h.of_reaches hreaches⟩

/-! ## Lattices -/

theorem mem_mostSpecific : i ∈ a.mostSpecific root t ↔
    Walk.Reaches (a.coveringChildren t) root i ∧ a.coveringChildren t i = [] := by
  have hdown : ∀ i, ∀ c ∈ a.coveringChildren t i, id c < id i :=
    fun i c hc => children_lt (List.mem_filter.1 hc).1
  have hlevels : id root < levels root := Nat.lt_succ_self root
  rw [mostSpecific, List.mem_filter, mem_preorder hdown hlevels, List.isEmpty_iff]

/-- The search for what covers a template goes down, and once it has left the root it is at nodes that
cover the template. -/
theorem of_reaches_coveringChildren (h : Walk.Reaches (a.coveringChildren t) root i) :
    a.Reaches root i ∧ (i = root ∨ (a.template i).covers t = true) := by
  apply h.induct (P := fun i => a.Reaches root i ∧ (i = root ∨ (a.template i).covers t = true))
  · exact ⟨.refl _ _, .inl rfl⟩
  · intro j hj c hc
    obtain ⟨hc, hcovers⟩ := List.mem_filter.1 hc
    exact ⟨hj.1.trans (reaches_of_mem_children hc), .inr hcovers⟩

/-- New edges lead from a node of the tree to one that it covers. -/
theorem of_mem_newEdges (h : a.Covering root) {e : Nat × Nat} (he : e ∈ a.newEdges root) :
    a.Reaches root e.2 ∧ (a.template e.1).covers (a.template e.2) = true := by
  obtain ⟨d, hd, he⟩ := List.mem_flatMap.1 he
  obtain ⟨i, hi, rfl⟩ := List.mem_map.1 he
  have hd := mem_descendants.1 hd
  have hsearch := (mem_mostSpecific.1 (List.mem_filter.1 hi).1).1
  refine ⟨hd, ?_⟩
  rcases (of_reaches_coveringChildren hsearch).2 with rfl | hc
  · exact h.covers hd
  · exact hc

/-- The nodes made so far stand for those that they are made of. -/
structure Attached (a : Arena) (state : Arena × List (Nat × Nat)) : Prop where
  extends_ : state.1.Extends a
  stands : ∀ i j, state.2.lookup i = some j → Stands state.1 (a.template i) j

/-- A node that stands for another one can be stored and noted as made. -/
theorem Attached.intern {b : Arena} {known : List (Nat × Nat)} {images : List Nat}
    (hs : Attached a (b, known)) (hi : Stands (b.intern (a.template i) images).1 (a.template i)
      (b.intern (a.template i) images).2) :
    Attached a ((b.intern (a.template i) images).1,
      (i, (b.intern (a.template i) images).2) :: known) := by
  have hext := b.extends_intern (a.template i) images
  refine ⟨hext.trans hs.extends_, fun k j hj => ?_⟩
  rw [List.lookup_cons] at hj
  split at hj
  next heq =>
    rw [eq_of_beq heq, ← Option.some.inj hj]
    exact hi
  · exact (hs.stands k j hj).of_extends hext

/-- Old and new children of a node are in the tree, and the node covers them. -/
theorem covers_childrenWith {extra : List (Nat × Nat)} (h : a.Covering root)
    (hextra : ∀ e ∈ extra, a.Reaches root e.2 ∧ (a.template e.1).covers (a.template e.2) = true)
    (hi : a.Reaches root i) (hc : c ∈ a.childrenWith extra i) :
    a.Reaches root c ∧ (a.template i).covers (a.template c) = true := by
  rcases List.mem_append.1 hc with hc | hc
  · exact ⟨hi.trans (reaches_of_mem_children hc), h i hi c hc⟩
  · obtain ⟨e, he, rfl⟩ := List.mem_map.1 hc
    obtain ⟨he, heq⟩ := List.mem_filter.1 he
    exact eq_of_beq heq ▸ hextra e he

/-- Attaching keeps the nodes made so far, and the node that it gives stands for the one that it is
made of. -/
theorem attached_attach {extra : List (Nat × Nat)} (h : a.Covering root) (hroot : root < a.size)
    (hextra : ∀ e ∈ extra, a.Reaches root e.2 ∧ (a.template e.1).covers (a.template e.2) = true)
    (steps : Nat) (path : List Nat) {state : Arena × List (Nat × Nat)} (hs : Attached a state)
    (hi : a.Reaches root i) :
    Attached a (attach a extra steps path state i).1 ∧
      Stands (attach a extra steps path state i).1.1 (a.template i)
        (attach a extra steps path state i).2 := by
  induction steps generalizing path state i with
  | zero => exact ⟨hs, (stands_self h hroot hi).of_extends hs.extends_⟩
  | succ steps ih =>
    obtain ⟨b, known⟩ := state
    simp only [attach]
    split
    next image himage => exact ⟨hs, hs.stands i image himage⟩
    · have hbelow : ∀ c ∈ (a.childrenWith extra i).filter fun c => !(i :: path).contains c,
          a.Reaches root c ∧ (a.template i).covers (a.template c) = true :=
        fun c hc => covers_childrenWith h hextra hi (List.mem_filter.1 hc).1
      generalize hr : List.foldl _ ((b, known), []) _ = r
      obtain ⟨hattached, himages⟩ := foldl_collect (I := Attached a)
        (R := fun s c => Stands s.1 (a.template c))
        (fun s hs c hc => by
          obtain ⟨hattached, hstands⟩ := ih (i :: path) hs (hbelow c hc).1
          have hext := extends_attach a extra steps (i :: path) s c
          exact ⟨hattached, hstands, fun _ _ hd => hd.of_extends hext⟩)
        hs .nil hr
      obtain ⟨⟨b', known'⟩, images⟩ := r
      have hstands : Stands (b'.intern (a.template i) images).1 (a.template i)
          (b'.intern (a.template i) images).2 := by
        refine stands_intern (fun c hc => ?_) rfl
        obtain ⟨d, hd, hstands⟩ := exists_of_mem_right himages hc
        exact hstands.fits (hbelow d hd).2
      exact ⟨hattached.intern hstands, hstands⟩

theorem stands_lattice (h : a.Covering root) (hroot : root < a.size) :
    Stands (a.lattice root).1 (a.template root) (a.lattice root).2 := by
  have hstart : Attached a (a, []) := ⟨.refl a, fun _ _ h => nomatch h⟩
  have hextra := fun e (he : e ∈ a.newEdges root) => of_mem_newEdges h he
  exact (attached_attach h hroot hextra (a.size + 1) [] hstart (.refl _ root)).2

/-! ## All transformations -/

theorem stands_transform (f : Transformation) (h : a.Covering root) (hroot : root < a.size) :
    Stands (f.apply a root).1 (a.template root) (f.apply a root).2 := by
  cases f with
  | collapse => exact stands_collapse h hroot
  | splice sets => exact stands_splice h hroot sets
  | prune => exact stands_prune h hroot
  | lattice => exact stands_lattice h hroot
  | rename names => exact stands_rename h hroot names
  | nameSlots source => exact stands_rename h hroot _
  | flatten depth => exact stands_flatten h hroot depth

/-- **Transformations keep trees covering.** Of a tree in which every parent covers its children they
make another one, the root of which covers every node below it. -/
theorem covering_transform (f : Transformation) (hroot : root < a.size) (h : a.Covering root) :
    (f.apply a root).1.Covering (f.apply a root).2 ∧
      ∀ i, (f.apply a root).1.Reaches (f.apply a root).2 i →
        ((f.apply a root).1.template (f.apply a root).2).covers ((f.apply a root).1.template i) =
          true := by
  have hstands := stands_transform f h hroot
  exact ⟨hstands.covering, fun i hi => hstands.covering.covers hi⟩

/-- The lines "a b" and "a c" below a slot, of which only the first is below "a" with a slot. -/
def twoLines : Arena :=
  let (a, first) := empty.leaf ⟨[.literal "a", .literal "b"]⟩
  let (a, second) := a.leaf ⟨[.literal "a", .literal "c"]⟩
  let (a, inner) := a.intern ⟨[.literal "a", .slot (.anonymous 0)]⟩ [first]
  (a.intern ⟨[.slot (.anonymous 1)]⟩ [inner, second]).1

/-- In the lattice of the two lines the second one is below "a" with a slot as well. -/
theorem covering_lattice_twoLines :
    (3 < twoLines.size ∧ twoLines.Covering 3) ∧
      (Transformation.lattice.apply twoLines 3).1.edges
          (Transformation.lattice.apply twoLines 3).2 = [(5, 1), (5, 4), (4, 0), (4, 1)] ∧
        (Transformation.lattice.apply twoLines 3).1.Covering
            (Transformation.lattice.apply twoLines 3).2 ∧
          ∀ i, (Transformation.lattice.apply twoLines 3).1.Reaches
              (Transformation.lattice.apply twoLines 3).2 i →
            ((Transformation.lattice.apply twoLines 3).1.template
                (Transformation.lattice.apply twoLines 3).2).covers
              ((Transformation.lattice.apply twoLines 3).1.template i) = true := by
  have hroot : 3 < twoLines.size := by decide +kernel
  have hcovering : twoLines.Covering 3 := covering_of_edges (by decide +kernel)
  exact ⟨⟨hroot, hcovering⟩, by decide +kernel, covering_transform .lattice hroot hcovering⟩

end GrammarInduction.Arena
