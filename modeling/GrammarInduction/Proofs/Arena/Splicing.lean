import GrammarInduction.Proofs.Arena.Collapsing
import GrammarInduction.Proofs.Arena.Covering

/-!
# Leaves of a spliced tree

Splicing puts the children of a redundant node in its place. A leaf has none, so that a redundant leaf
is dropped (`dropsLeaf`); only leaves with slots can be.

* `KeepsLeaf sets a i l`: the leaf `l` is at or below `i` and some parent of it there does not drop it.
  For an inner node this goes down to one of its children (`keepsLeaf_iff`).
* `Spliced`: how the new node of a node stands to it. It has all leaves that are kept, and no others
  unless an inner node has lost all it had (`spliced_intern`).
* `splicing_keeps_leaves`: what this comes to at the root; `splicing_loses_leaf` is a tree of which a
  leaf is lost.
-/

namespace GrammarInduction.Arena

open Walk

variable {sets : ValueSets} {a b b' : Arena} {i j l c d root : Nat} {images : List Nat}

/-! ## Leaves that are dropped -/

/-- Whether a child is a leaf that is redundant below its parent: nothing comes in its place. -/
def dropsLeaf (sets : ValueSets) (a : Arena) (i c : Nat) : Bool :=
  isRedundant sets (a.template i) (a.template c) && a.isLeaf c

/-- A leaf at or below a node that not all of its parents there drop. -/
def KeepsLeaf (sets : ValueSets) (a : Arena) (i l : Nat) : Prop :=
  l ∈ a.leaves i ∧ (l = i ∨ ∃ j, a.Reaches i j ∧ l ∈ a.children j ∧ a.dropsLeaf sets j l = false)

theorem dropsLeaf_of_not_isLeaf (h : a.isLeaf c = false) : a.dropsLeaf sets i c = false := by
  simp [dropsLeaf, h]

theorem keepsLeaf_of_isLeaf (h : a.isLeaf i = true) : KeepsLeaf sets a i i :=
  ⟨(mem_leaves_of_isLeaf h).2 rfl, .inl rfl⟩

/-- **An inner node keeps the leaves that its children keep, without those that it drops.** -/
theorem keepsLeaf_iff (hi : a.isLeaf i = false) :
    KeepsLeaf sets a i l ↔
      ∃ c ∈ a.children i, a.dropsLeaf sets i c = false ∧ KeepsLeaf sets a c l := by
  constructor
  · rintro ⟨hl, hkept⟩
    have hleaf := (mem_leaves.1 hl).2
    have hne : l ≠ i := by
      rintro rfl
      exact Bool.noConfusion (hleaf.symm.trans hi)
    obtain ⟨j, hij, hj, hdrop⟩ := hkept.resolve_left hne
    rcases reaches_iff_eq_or.1 hij with rfl | ⟨c, hc, hcj⟩
    · exact ⟨l, hj, hdrop, keepsLeaf_of_isLeaf hleaf⟩
    · have hinner : a.isLeaf c = false := by
        rcases reaches_iff_eq_or.1 hcj with rfl | ⟨d, hd, -⟩
        · exact not_isLeaf_of_mem_children hj
        · exact not_isLeaf_of_mem_children hd
      have hreaches := hcj.trans (reaches_of_mem_children hj)
      exact ⟨c, hc, dropsLeaf_of_not_isLeaf hinner, mem_leaves.2 ⟨hreaches, hleaf⟩,
        .inr ⟨j, hcj, hj, hdrop⟩⟩
  · rintro ⟨c, hc, hdrop, hl, hkept⟩
    refine ⟨(mem_leaves_of_not_isLeaf hi).2 ⟨c, hc, hl⟩, .inr ?_⟩
    rcases hkept with rfl | ⟨j, hcj, hj, hdrop'⟩
    · exact ⟨i, .refl _ _, hc, hdrop⟩
    · exact ⟨j, (reaches_of_mem_children hc).trans hcj, hj, hdrop'⟩

/-- Where every inner node has a child that it does not drop, every node keeps a leaf. -/
theorem exists_keepsLeaf (h : ∀ j, a.Reaches root j → a.isLeaf j = false →
    ∃ c ∈ a.children j, a.dropsLeaf sets j c = false) (hi : a.Reaches root i) :
    ∃ l, KeepsLeaf sets a i l := by
  induction i using Nat.strongRecOn with
  | ind i ih =>
    cases hleaf : a.isLeaf i with
    | true => exact ⟨i, keepsLeaf_of_isLeaf hleaf⟩
    | false =>
      obtain ⟨c, hc, hdrop⟩ := h i hi hleaf
      obtain ⟨l, hl⟩ := ih c (children_lt hc) (hi.trans (reaches_of_mem_children hc))
      exact ⟨l, (keepsLeaf_iff hleaf).2 ⟨c, hc, hdrop, hl⟩⟩

/-- Where nothing is dropped, every leaf is kept. -/
theorem keepsLeaf_of_mem_leaves
    (h : ∀ j, a.Reaches root j → ∀ c ∈ a.children j, a.dropsLeaf sets j c = false)
    (hi : a.Reaches root i) (hl : l ∈ a.leaves i) : KeepsLeaf sets a i l := by
  induction i using Nat.strongRecOn with
  | ind i ih =>
    cases hleaf : a.isLeaf i with
    | true =>
      obtain rfl := (mem_leaves_of_isLeaf hleaf).1 hl
      exact keepsLeaf_of_isLeaf hleaf
    | false =>
      obtain ⟨c, hc, hl⟩ := (mem_leaves_of_not_isLeaf hleaf).1 hl
      have hkept := ih c (children_lt hc) (hi.trans (reaches_of_mem_children hc)) hl
      exact (keepsLeaf_iff hleaf).2 ⟨c, hc, h i hi c hc, hkept⟩

/-- A leaf without slots is not dropped. -/
theorem dropsLeaf_of_free (hfree : ∀ l ∈ a.leaves root, (a.template l).hasSlots = false)
    (hi : a.Reaches root i) (hc : c ∈ a.children i) : a.dropsLeaf sets i c = false := by
  cases hleaf : a.isLeaf c with
  | false => exact dropsLeaf_of_not_isLeaf hleaf
  | true =>
    have hnoslots := hfree c (mem_leaves.2 ⟨hi.trans (reaches_of_mem_children hc), hleaf⟩)
    rw [dropsLeaf, isRedundant_of_not_hasSlots hnoslots, Bool.false_and]

/-! ## The new nodes -/

/-- The new node `j` of a node `i`: a leaf stays as it is, and what keeps a leaf stays an inner node
over all that it keeps. There is no other leaf if every node below keeps one. -/
structure Spliced (sets : ValueSets) (a b : Arena) (i j : Nat) : Prop where
  lt : j < b.size
  leaf : a.isLeaf i = true → j = i
  inner : a.isLeaf i = false → ∀ l, KeepsLeaf sets a i l → b.isLeaf j = false
  keeps : ∀ l, KeepsLeaf sets a i l → l ∈ b.leaves j
  only : (∀ k, a.Reaches i k → ∃ l, KeepsLeaf sets a k l) →
    ∀ l, l ∈ b.leaves j → KeepsLeaf sets a i l

theorem Spliced.of_extends (h : Spliced sets a b i j) (hext : b'.Extends b) :
    Spliced sets a b' i j where
  lt := Nat.lt_of_lt_of_le h.lt hext.size_le
  leaf := h.leaf
  inner hi l hl := by rw [hext.isLeaf h.lt, h.inner hi l hl]
  keeps l hl := (hext.mem_leaves_iff h.lt).2 (h.keeps l hl)
  only hkeeps l hl := h.only hkeeps l ((hext.mem_leaves_iff h.lt).1 hl)

theorem spliced_self (hlt : i < a.size) (hi : a.isLeaf i = true) : Spliced sets a a i i where
  lt := hlt
  leaf _ := rfl
  inner h := absurd (hi.symm.trans h) Bool.noConfusion
  keeps _ hl := hl.1
  only _ l hl := by
    obtain rfl := (mem_leaves_of_isLeaf hi).1 hl
    exact keepsLeaf_of_isLeaf hi

/-- What is dropped can be seen from the new node of a child. -/
theorem Spliced.dropsLeaf_eq_false (h : Spliced sets a b c d) (hb : b.Extends a) (hc : c < a.size)
    (hd : ¬ (isRedundant sets (a.template i) (b.template d) = true ∧ b.isLeaf d = true)) :
    a.dropsLeaf sets i c = false := by
  cases hleaf : a.isLeaf c with
  | false => exact dropsLeaf_of_not_isLeaf hleaf
  | true =>
    obtain rfl := h.leaf hleaf
    rw [hb.template hc, hb.isLeaf hc] at hd
    simpa [dropsLeaf] using hd

/-- The new node of a child stays, or else its children do, if the child keeps a leaf and is not
dropped. -/
theorem Spliced.stays (h : Spliced sets a b c d) (hb : b.Extends a) (hc : c < a.size)
    (hdrop : a.dropsLeaf sets i c = false) (hl : KeepsLeaf sets a c l) :
    ¬ (isRedundant sets (a.template i) (b.template d) = true ∧ b.isLeaf d = true) := by
  rintro ⟨hr, hleaf⟩
  cases hc' : a.isLeaf c with
  | false => exact Bool.noConfusion (hleaf.symm.trans (h.inner hc' l hl))
  | true =>
    obtain rfl := h.leaf hc'
    rw [hb.template hc] at hr
    simp [dropsLeaf, hr, hc'] at hdrop

/-- **The new node of an inner node**, over the new nodes of its children. -/
theorem spliced_intern (hb : b.Extends a) (hlt : i < a.size) (hi : a.isLeaf i = false)
    (himages : List.Forall₂ (Spliced sets a b) (a.children i) images) :
    Spliced sets a (spliceStep sets a b i images).1 i (spliceStep sets a b i images).2 := by
  simp only [spliceStep]
  generalize hids : (images.flatMap fun c =>
    if isRedundant sets (a.template i) (b.template c) then b.children c else [c]) = ids
  have hsize : ∀ d ∈ ids, d < b.size := by
    intro d hd
    rw [← hids, List.mem_flatMap] at hd
    obtain ⟨c, hc, hd⟩ := hd
    obtain ⟨e, -, hspliced⟩ := exists_of_mem_right himages hc
    split at hd
    · exact Nat.lt_trans (children_lt hd) hspliced.lt
    · exact List.mem_singleton.1 hd ▸ hspliced.lt
  have hchild : ∀ c ∈ a.children i, c < a.size := fun c hc => Nat.lt_trans (children_lt hc) hlt
  have hleaves : ∀ l, (∃ d ∈ ids, l ∈ b.leaves d) ↔ ∃ c ∈ images,
      ¬ (isRedundant sets (a.template i) (b.template c) = true ∧ b.isLeaf c = true) ∧
        l ∈ b.leaves c := by
    intro l
    rw [← hids]
    exact mem_leaves_splice
  have hkeeps : ∀ l, KeepsLeaf sets a i l → ∃ d ∈ ids, l ∈ b.leaves d := by
    intro l hl
    obtain ⟨c, hc, hdrop, hl⟩ := (keepsLeaf_iff hi).1 hl
    obtain ⟨d, hd, hspliced⟩ := exists_of_mem_left himages hc
    exact (hleaves l).2 ⟨d, hd, hspliced.stays hb (hchild c hc) hdrop hl, hspliced.keeps l hl⟩
  have hne : ∀ l, KeepsLeaf sets a i l → ids ≠ [] := by
    intro l hl
    obtain ⟨d, hd, -⟩ := hkeeps l hl
    exact List.ne_nil_of_mem hd
  refine ⟨b.intern_lt_size _ ids, fun h => absurd (h.symm.trans hi) Bool.noConfusion,
    fun _ l hl => ?_, fun l hl => ?_, fun hbelow l hl => ?_⟩
  · rw [isLeaf_intern hsize]
    simpa using hne l hl
  · exact (mem_leaves_intern hsize (hne l hl)).2 (hkeeps l hl)
  · obtain ⟨k, hk⟩ := hbelow i (.refl _ _)
    obtain ⟨d, hd, hstays, hl⟩ := (hleaves l).1 ((mem_leaves_intern hsize (hne k hk)).1 hl)
    obtain ⟨c, hc, hspliced⟩ := exists_of_mem_right himages hd
    have hc' := hspliced.only (fun k hk => hbelow k ((reaches_of_mem_children hc).trans hk)) l hl
    exact (keepsLeaf_iff hi).2 ⟨c, hc, hspliced.dropsLeaf_eq_false hb (hchild c hc) hstays, hc'⟩

theorem spliced_splice (hroot : root < a.size) (sets : ValueSets) :
    Spliced sets a (a.splice sets root).1 root (a.splice sets root).2 :=
  (rebuild_onInner_induct (fun b => b) (P := Spliced sets a) (fun _ _ _ _ h hext => h.of_extends hext)
    (fun _ hi hleaf => spliced_self (hi.lt_size hroot) hleaf)
    (fun b hb _ hi hinner _ himages =>
      ⟨b.extends_intern _ _, spliced_intern hb (hi.lt_size hroot) hinner himages⟩)
    (Extends.refl a)).2

/-! ## Leaves of the root -/

/-- **Which leaves splicing keeps.** A leaf is lost only if each of its parents drops it. If every inner
node has a child that it does not drop, the leaves of the spliced tree are those that some parent does
not drop. So if no parent drops a leaf, the leaves are the same; and a leaf without slots is never
dropped. -/
theorem splicing_keeps_leaves (sets : ValueSets) (a : Arena) (root : Nat) (hroot : root < a.size) :
    (∀ l, KeepsLeaf sets a root l → l ∈ (a.splice sets root).1.leaves (a.splice sets root).2) ∧
    ((∀ i, a.Reaches root i → a.isLeaf i = false →
        ∃ c ∈ a.children i, a.dropsLeaf sets i c = false) →
      ∀ l, l ∈ (a.splice sets root).1.leaves (a.splice sets root).2 ↔ KeepsLeaf sets a root l) ∧
    ((∀ i, a.Reaches root i → ∀ c ∈ a.children i, a.dropsLeaf sets i c = false) →
      ∀ l, l ∈ (a.splice sets root).1.leaves (a.splice sets root).2 ↔ l ∈ a.leaves root) ∧
    ((∀ l ∈ a.leaves root, (a.template l).hasSlots = false) →
      ∀ i, a.Reaches root i → ∀ c ∈ a.children i, a.dropsLeaf sets i c = false) := by
  have hspliced := spliced_splice hroot sets
  have hexact : (∀ i, a.Reaches root i → a.isLeaf i = false →
        ∃ c ∈ a.children i, a.dropsLeaf sets i c = false) →
      ∀ l, l ∈ (a.splice sets root).1.leaves (a.splice sets root).2 ↔ KeepsLeaf sets a root l :=
    fun h l => ⟨hspliced.only (fun _ hk => exists_keepsLeaf h hk) l, hspliced.keeps l⟩
  refine ⟨hspliced.keeps, hexact, fun h l => ?_, fun hfree i hi c hc => dropsLeaf_of_free hfree hi hc⟩
  have hkeeps : ∀ i, a.Reaches root i → a.isLeaf i = false →
      ∃ c ∈ a.children i, a.dropsLeaf sets i c = false := by
    intro i hi hinner
    obtain ⟨c, hc⟩ := exists_mem_children hinner
    exact ⟨c, hc, h i hi c hc⟩
  exact (hexact hkeeps l).trans ⟨And.left, keepsLeaf_of_mem_leaves h (.refl _ _)⟩

/-- Two lines with a slot, below two templates one below the other. -/
def hotDrinks : Arena :=
  let who := Token.slot (.named "who")
  let (a, tea) := empty.leaf ⟨[who, .literal "likes", .literal "tea"]⟩
  let (a, coffee) := a.leaf ⟨[who, .literal "likes", .literal "coffee"]⟩
  let (a, hot) := a.intern ⟨[who, .literal "likes", .slot (.named "hot")]⟩ [tea, coffee]
  (a.intern ⟨[who, .literal "likes", .slot (.named "drink")]⟩ [hot]).1

/-- A drink is a hot one. -/
def drinkIsHot : ValueSets :=
  OrderedMap.empty.insert (.named "drink") (.ofList [.ofSlot (.named "hot")])

/-- The only hot drink is tea. -/
def hotIsTea : ValueSets := OrderedMap.empty.insert (.named "hot") (.ofList [.ofWords ["tea"]])

/-- The node of hot drinks is spliced out, and both lines stay. -/
theorem splicing_keeps_leaves_of_hotDrinks :
    3 < hotDrinks.size ∧
    (∀ i, hotDrinks.Reaches 3 i → ∀ c ∈ hotDrinks.children i,
      hotDrinks.dropsLeaf drinkIsHot i c = false) ∧
    (hotDrinks.splice drinkIsHot 3).1.children (hotDrinks.splice drinkIsHot 3).2 = [0, 1] ∧
    ∀ l, l ∈ (hotDrinks.splice drinkIsHot 3).1.leaves (hotDrinks.splice drinkIsHot 3).2 ↔
      l ∈ hotDrinks.leaves 3 := by
  have hroot : 3 < hotDrinks.size := by decide +kernel
  have hkept : ∀ i, hotDrinks.Reaches 3 i → ∀ c ∈ hotDrinks.children i,
      hotDrinks.dropsLeaf drinkIsHot i c = false := by
    have hedges : ∀ e ∈ hotDrinks.edges 3, hotDrinks.dropsLeaf drinkIsHot e.1 e.2 = false := by
      decide +kernel
    exact fun i hi c hc => hedges (i, c) (mem_arena_edges.2 ⟨hi, hc⟩)
  exact ⟨hroot, hkept, by decide +kernel,
    (splicing_keeps_leaves drinkIsHot hotDrinks 3 hroot).2.2.1 hkept⟩

/-- **Splicing can lose a leaf**, though every parent covers its children. -/
theorem splicing_loses_leaf :
    2 < hotDrinks.size ∧ hotDrinks.Covering 2 ∧ hotDrinks.leaves 2 = [0, 1] ∧
    (hotDrinks.splice hotIsTea 2).1.leaves (hotDrinks.splice hotIsTea 2).2 = [1] :=
  ⟨by decide +kernel, covering_of_edges (by decide +kernel), by decide +kernel, by decide +kernel⟩

end GrammarInduction.Arena
