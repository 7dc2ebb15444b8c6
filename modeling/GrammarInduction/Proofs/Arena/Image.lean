import GrammarInduction.Proofs.Arena.Below
import GrammarInduction.Proofs.Template.Slots

/-!
# Trees rebuilt over the same leaves

`Image P a b i j` says that the node `j` of a grown arena `b` stands over the same leaves as the
node `i` of `a`, and that all slots at and below it have the property `P`. Rebuilding gives such an
image if each step does (`image_rebuild`), and a step does if it puts its node over images that have
the leaves of the node (`image_intern`).

* `image_rename`: so does renaming, if all leaves are free of slots.
* `image_recalculate`: so does recalculating templates.
-/

namespace GrammarInduction.Arena

open Walk

variable {P : Slot → Prop} {a b b' : Arena} {i j l root : Nat} {ids images : List Nat} {template : Template}

/-- A node of `b` over the same leaves as a node of `a`, with all slots at and below it having a
property. -/
structure Image (P : Slot → Prop) (a b : Arena) (i j : Nat) : Prop where
  lt : j < b.size
  leaves : ∀ l, l ∈ b.leaves j ↔ l ∈ a.leaves i
  slots : ∀ k, b.Reaches j k → (b.template k).Over P

theorem Image.of_extends (h : Image P a b i j) (hext : b'.Extends b) : Image P a b' i j where
  lt := Nat.lt_of_lt_of_le h.lt hext.size_le
  leaves l := (hext.mem_leaves_iff h.lt).trans (h.leaves l)
  slots k hk := by
    rw [hext.reaches_iff h.lt] at hk
    rw [hext.template (hk.lt_size h.lt)]
    exact h.slots k hk

theorem image_self (hi : i < a.size) (h : ∀ k, a.Reaches i k → (a.template k).Over P) :
    Image P a a i i :=
  ⟨hi, fun _ => .rfl, h⟩

/-! ## Storing -/

/-- A stored node over the leaves of a node is an image of it. -/
theorem image_intern (hP : Slot.Formal P) (ht : template.Over P) (hlt : ∀ c ∈ ids, c < b.size)
    (hslots : ∀ c ∈ ids, ∀ k, b.Reaches c k → (b.template k).Over P)
    (hleaves : ∀ l, (∃ c ∈ ids, l ∈ b.leaves c) ↔ l ∈ a.leaves i) :
    Image P a (b.intern template ids).1 i (b.intern template ids).2 := by
  have hne : ids ≠ [] := by
    obtain ⟨l, hl⟩ := a.exists_mem_leaves i
    obtain ⟨c, hc, -⟩ := (hleaves l).2 hl
    exact List.ne_nil_of_mem hc
  refine ⟨b.intern_lt_size template ids, fun l => ?_, fun k hk => ?_⟩
  · rw [mem_leaves_intern hlt hne, hleaves]
  · rcases (reaches_intern_iff hlt).1 hk with rfl | ⟨c, hc, hck⟩
    · exact ht.congr hP (BEq.symm (b.intern_same template ids).2)
    · rw [(b.extends_intern template ids).template (hck.lt_size (hlt c hc))]
      exact hslots c hc k hck

/-- Images of the children have the leaves of the node. -/
theorem mem_leaves_of_images (h : List.Forall₂ (Image P a b) (a.children i) images)
    (hi : a.isLeaf i = false) : (∃ c ∈ images, l ∈ b.leaves c) ↔ l ∈ a.leaves i := by
  rw [mem_leaves_of_not_isLeaf hi]
  constructor
  · rintro ⟨c, hc, hl⟩
    obtain ⟨d, hd, himage⟩ := exists_of_mem_right h hc
    exact ⟨d, hd, (himage.leaves l).1 hl⟩
  · rintro ⟨d, hd, hl⟩
    obtain ⟨c, hc, himage⟩ := exists_of_mem_left h hd
    exact ⟨c, hc, (himage.leaves l).2 hl⟩

theorem lt_of_mem_images (h : List.Forall₂ (Image P a b) (a.children i) images) :
    ∀ c ∈ images, c < b.size := by
  intro c hc
  obtain ⟨_, _, himage⟩ := exists_of_mem_right h hc
  exact himage.lt

theorem over_of_mem_images (h : List.Forall₂ (Image P a b) (a.children i) images) :
    ∀ c ∈ images, ∀ k, b.Reaches c k → (b.template k).Over P := by
  intro c hc
  obtain ⟨_, _, himage⟩ := exists_of_mem_right h hc
  exact himage.slots

/-! ## Rebuilding -/

/-- Rebuilding gives an image of the root if each step gives an image of its node; the arena is a
part of the state. -/
theorem image_rebuild {σ : Type} (arena : σ → Arena) {step : σ → Nat → List Nat → σ × Nat}
    (hstep : ∀ s, (arena s).Extends a → ∀ i, a.Reaches root i → ∀ images,
      List.Forall₂ (Image P a (arena s)) (a.children i) images →
        (arena (step s i images).1).Extends (arena s) ∧
          Image P a (arena (step s i images).1) i (step s i images).2)
    {s : σ} (hs : (arena s).Extends a) :
    (arena (a.rebuild step s root).1).Extends a ∧
      Image P a (arena (a.rebuild step s root).1) root (a.rebuild step s root).2 :=
  rebuild_induct arena (fun _ _ _ _ h hext => h.of_extends hext) hstep hs

/-- The same for steps that leave leaves alone. -/
theorem image_rebuild_onInner {σ : Type} (arena : σ → Arena) {step : σ → Nat → List Nat → σ × Nat}
    (hroot : root < a.size) (hslots : ∀ i, a.Reaches root i → (a.template i).Over P)
    (hstep : ∀ s, (arena s).Extends a → ∀ i, a.Reaches root i → a.isLeaf i = false → ∀ images,
      List.Forall₂ (Image P a (arena s)) (a.children i) images →
        (arena (step s i images).1).Extends (arena s) ∧
          Image P a (arena (step s i images).1) i (step s i images).2)
    {s : σ} (hs : (arena s).Extends a) :
    (arena (a.rebuild (a.onInner step) s root).1).Extends a ∧
      Image P a (arena (a.rebuild (a.onInner step) s root).1) root
        (a.rebuild (a.onInner step) s root).2 :=
  rebuild_onInner_induct arena (fun _ _ _ _ h hext => h.of_extends hext)
    (fun _ hi _ => image_self (hi.lt_size hroot) fun k hk => hslots k (hi.trans hk)) hstep hs

/-! ## Renaming -/

/-- The tree with its slots renamed is an image, if no leaf has slots. -/
theorem image_rename {names : OrderedMap Slot Slot} (hP : Slot.Formal P) (hroot : root < a.size)
    (hfree : ∀ l ∈ a.leaves root, (a.template l).hasSlots = false)
    (hnames : ∀ i, a.Reaches root i → ∀ s ∈ (a.template i).slots, P ((names.get? s).getD s)) :
    (a.rename names root).1.Extends a ∧
      Image P a (a.rename names root).1 root (a.rename names root).2 := by
  have hrenamed : ∀ i, a.Reaches root i → ((a.template i).rename names).Over P := by
    intro i hi s hs
    obtain ⟨k, hk, rfl⟩ := Template.mem_slots_rename.1 hs
    exact hnames i hi k hk
  unfold rename
  split
  next hempty =>
    refine ⟨Extends.refl a, image_self hroot fun i hi s hs => ?_⟩
    have hget : names.get? s = none := by
      rw [OrderedMap.isEmpty, List.isEmpty_iff] at hempty
      simp [OrderedMap.get?, OrderedMap.find?, hempty]
    simpa [hget] using hnames i hi s hs
  · refine image_rebuild (fun b => b) (fun b hb i hi images himages => ?_) (Extends.refl a)
    refine ⟨b.extends_intern _ _, ?_⟩
    cases hleaf : a.isLeaf i with
    | true =>
      have hsize := hi.lt_size hroot
      have hchildren : a.children i = [] := isLeaf_iff.1 hleaf
      obtain rfl : images = [] := by
        rw [hchildren] at himages
        exact List.forall₂_nil_left_iff.1 himages
      have hnoslots := hfree i (mem_leaves.2 ⟨hi, hleaf⟩)
      have hsame : b.intern ((a.template i).rename names) [] = (b, i) := by
        rw [Template.rename_of_not_hasSlots hnoslots]
        refine intern_eq_of_same (Nat.lt_of_lt_of_le hsize hb.size_le) ?_ ?_
        · rw [hb.children hsize, hchildren]
          exact List.eq_nil_iff_forall_not_mem.2 fun c hc => by simp [mem_arrange] at hc
        · rw [hb.template hsize]
          exact BEq.rfl
      rw [hsame]
      refine (image_self hsize fun k hk => ?_).of_extends hb
      rw [hk.eq_of_isLeaf hleaf]
      exact Template.over_of_not_hasSlots hnoslots
    | false =>
      exact image_intern hP (hrenamed i hi) (lt_of_mem_images himages) (over_of_mem_images himages)
        fun l => mem_leaves_of_images himages hleaf

/-! ## Recalculating templates -/

/-- The tree with the templates of inner nodes merged anew is an image; the fresh slots in it are
anonymous. -/
theorem image_recalculate (hP : Slot.Formal P) (hfresh : ∀ id, P (.anonymous id))
    (hroot : root < a.size) (hslots : ∀ i, a.Reaches root i → (a.template i).Over P)
    (minimalVariables : Bool) (supply : Nat) :
    (a.recalculate minimalVariables root supply).1.1.Extends a ∧
      Image P a (a.recalculate minimalVariables root supply).1.1 root
        (a.recalculate minimalVariables root supply).1.2 := by
  refine image_rebuild_onInner (σ := Arena × Nat) Prod.fst hroot hslots
    (fun s hs i hi hinner images himages => ?_) (s := (a, supply)) (Extends.refl a)
  obtain ⟨b, supply⟩ := s
  refine ⟨b.extends_intern _ _, ?_⟩
  refine image_intern hP ?_ (lt_of_mem_images himages) (over_of_mem_images himages)
    fun l => mem_leaves_of_images himages hinner
  have htemplates : ∀ t ∈ images.map b.template, t.Over P := by
    intro t ht
    obtain ⟨c, hc, rfl⟩ := List.mem_map.1 ht
    exact over_of_mem_images himages c hc c (.refl _ _)
  exact Template.over_mergeAll hfresh htemplates (hslots i hi)

end GrammarInduction.Arena
