import GrammarInduction.Arena.Rebuild
import GrammarInduction.Proofs.Walk.Sweep
import Mathlib.Data.List.Sort

/-!
# Nodes below a node

The nodes at and below a node are those that its children lead to (`Arena.Reaches`); children have
smaller numbers, so that every walk of `Arena.Traversal` finds all of them.

* `mem_descendants`, `mem_strictDescendants`, `mem_leaves` and `mem_arena_edges` say what is listed.
* `Extends.reaches_iff` and `Extends.mem_leaves_iff`: what is below a node stays as it is when the
  arena grows.
* `reaches_intern_iff` and `mem_leaves_intern` say what is below a node that is stored.
* `Throughout Q a i`: the property `Q` holds of every node at and below `i`. It stays when the arena
  grows if `Q` does (`Throughout.of_extends`), and is found node by node (`throughout_of_children`).
* `rebuild_spec` is the rule for rebuilding: what a step establishes between a node and its image,
  given images of the children, holds of the root and its image. `rebuild_induct` is the rule for what
  is kept when the arena grows, and `rebuild_eq_self` the one for steps that change nothing.
-/

namespace GrammarInduction.Arena

open Walk

variable {a b : Arena} {i j l : Nat}

/-- Whether a node is at or below another one. -/
def Reaches (a : Arena) : Nat → Nat → Prop := Walk.Reaches a.children

theorem children_down (a : Arena) : ∀ i, ∀ c ∈ a.children i, id c < id i := fun _ _ => children_lt

theorem Reaches.trans (h : a.Reaches i j) (h' : a.Reaches j l) : a.Reaches i l :=
  Walk.Reaches.trans h h'

theorem reaches_of_mem_children (h : j ∈ a.children i) : a.Reaches i j := reaches_of_mem h

theorem Reaches.le (h : a.Reaches i j) : j ≤ i := h.height_le a.children_down

theorem reaches_iff_eq_or : a.Reaches i j ↔ i = j ∨ ∃ c ∈ a.children i, a.Reaches c j := by
  refine ⟨reaches_cases_head, ?_⟩
  rintro (rfl | ⟨c, hc, h⟩)
  · exact .refl _ _
  · exact .head hc h

theorem isLeaf_iff : a.isLeaf i = true ↔ a.children i = [] := List.isEmpty_iff

theorem not_isLeaf_of_mem_children (h : j ∈ a.children i) : a.isLeaf i = false := by
  rw [← Bool.not_eq_true, isLeaf_iff]
  exact List.ne_nil_of_mem h

theorem not_mem_children_of_isLeaf (h : a.isLeaf i = true) : j ∉ a.children i := by
  rw [isLeaf_iff.1 h]
  exact List.not_mem_nil

theorem exists_mem_children (h : a.isLeaf i = false) : ∃ c, c ∈ a.children i :=
  List.exists_mem_of_ne_nil _ fun hnil => Bool.noConfusion ((isLeaf_iff.2 hnil).symm.trans h)

/-- A leaf leads nowhere. -/
theorem Reaches.eq_of_isLeaf (h : a.Reaches i j) (hi : a.isLeaf i = true) : j = i := by
  rcases reaches_iff_eq_or.1 h with rfl | ⟨c, hc, -⟩
  · rfl
  · simp [isLeaf_iff.1 hi] at hc

/-! ## What is listed -/

theorem mem_descendants : j ∈ a.descendants i ↔ a.Reaches i j :=
  Walk.mem_preorder a.children_down (Nat.lt_succ_self i)

theorem nodup_descendants (a : Arena) (i : Nat) : (a.descendants i).Nodup :=
  nodup_preorder _ _ _ _ .nil

theorem mem_strictDescendants : j ∈ a.strictDescendants i ↔ a.Reaches i j ∧ j ≠ i := by
  simp [strictDescendants, mem_descendants]

theorem mem_leaves : l ∈ a.leaves i ↔ a.Reaches i l ∧ a.isLeaf l = true := by
  simp [leaves, mem_descendants]

theorem nodup_leaves (a : Arena) (i : Nat) : (a.leaves i).Nodup := (a.nodup_descendants i).filter _

theorem mem_leaves_of_isLeaf (h : a.isLeaf i = true) : l ∈ a.leaves i ↔ l = i := by
  rw [mem_leaves]
  refine ⟨fun hl => hl.1.eq_of_isLeaf h, ?_⟩
  rintro rfl
  exact ⟨.refl _ _, h⟩

/-- The leaves below an inner node are those below its children. -/
theorem mem_leaves_of_not_isLeaf (h : a.isLeaf i = false) :
    l ∈ a.leaves i ↔ ∃ c ∈ a.children i, l ∈ a.leaves c := by
  simp only [mem_leaves]
  refine ⟨fun ⟨hr, hl⟩ => ?_, fun ⟨c, hc, hr, hl⟩ => ⟨.head hc hr, hl⟩⟩
  rcases reaches_iff_eq_or.1 hr with rfl | ⟨c, hc, hr⟩
  · simp [h] at hl
  · exact ⟨c, hc, hr, hl⟩

/-- Every node has a leaf at or below it. -/
theorem exists_mem_leaves (a : Arena) (i : Nat) : ∃ l, l ∈ a.leaves i := by
  induction i using Nat.strongRecOn with
  | ind i ih =>
    cases h : a.isLeaf i with
    | true => exact ⟨i, (mem_leaves_of_isLeaf h).2 rfl⟩
    | false =>
      obtain ⟨c, hc⟩ := exists_mem_children h
      obtain ⟨l, hl⟩ := ih c (children_lt hc)
      exact ⟨l, (mem_leaves_of_not_isLeaf h).2 ⟨c, hc, hl⟩⟩

theorem mem_arena_postorder : j ∈ a.postorder i ↔ a.Reaches i j :=
  Walk.mem_postorder a.children_down (Nat.lt_succ_self i)

theorem mem_arena_breadthFirst : j ∈ a.breadthFirst i ↔ a.Reaches i j :=
  Walk.mem_breadthFirst a.children_down (Nat.lt_succ_of_lt (Nat.lt_succ_self i))

theorem mem_arena_edges {e : Nat × Nat} :
    e ∈ a.edges i ↔ a.Reaches i e.1 ∧ e.2 ∈ a.children e.1 :=
  Walk.mem_edges a.children_down (Nat.lt_succ_self i)

theorem mem_slotsBreadthFirst {s : Slot} :
    s ∈ a.slotsBreadthFirst i ↔ ∃ j, a.Reaches i j ∧ s ∈ (a.template j).slots := by
  simp [slotsBreadthFirst, mem_arena_breadthFirst]

/-! ## Growth -/

theorem Reaches.lt_size (h : a.Reaches i j) (hi : i < a.size) : j < a.size :=
  Nat.lt_of_le_of_lt h.le hi

theorem Extends.reaches_iff (h : b.Extends a) (hi : i < a.size) :
    b.Reaches i j ↔ a.Reaches i j := by
  induction i using Nat.strongRecOn with
  | ind i ih =>
    rw [reaches_iff_eq_or, reaches_iff_eq_or, h.children hi]
    refine or_congr_right (exists_congr fun c => and_congr_right fun hc => ?_)
    exact ih c (children_lt hc) (Nat.lt_trans (children_lt hc) hi)

theorem Extends.isLeaf (h : b.Extends a) (hi : i < a.size) : b.isLeaf i = a.isLeaf i := by
  rw [Arena.isLeaf, Arena.isLeaf, h.children hi]

theorem Extends.mem_leaves_iff (h : b.Extends a) (hi : i < a.size) :
    l ∈ b.leaves i ↔ l ∈ a.leaves i := by
  rw [mem_leaves, mem_leaves, h.reaches_iff hi]
  exact and_congr_right fun hr => by rw [h.isLeaf (hr.lt_size hi)]

/-! ## What holds of every node -/

section Throughout

variable {Q : Arena → Nat → Prop}

/-- A property holds of every node at and below a node. -/
def Throughout (Q : Arena → Nat → Prop) (a : Arena) (i : Nat) : Prop := ∀ j, a.Reaches i j → Q a j

/-- A property that a node keeps when the arena grows. -/
def Lasting (Q : Arena → Nat → Prop) : Prop :=
  ∀ {a b : Arena} {i : Nat}, b.Extends a → i < a.size → Q a i → Q b i

theorem Throughout.self (h : Throughout Q a i) : Q a i := h i (.refl _ _)

theorem Throughout.of_reaches (h : Throughout Q a i) (hij : a.Reaches i j) : Throughout Q a j :=
  fun k hk => h k (hij.trans hk)

theorem Throughout.child (h : Throughout Q a i) (hj : j ∈ a.children i) : Throughout Q a j :=
  h.of_reaches (reaches_of_mem_children hj)

theorem Throughout.of_extends (hQ : Lasting Q) (h : Throughout Q a i) (hext : b.Extends a)
    (hi : i < a.size) : Throughout Q b i := by
  intro j hj
  rw [hext.reaches_iff hi] at hj
  exact hQ hext (hj.lt_size hi) (h j hj)

theorem throughout_of_children (h : Q a i) (hchildren : ∀ c ∈ a.children i, Throughout Q a c) :
    Throughout Q a i := by
  intro j hj
  rcases reaches_iff_eq_or.1 hj with rfl | ⟨c, hc, hj⟩
  · exact h
  · exact hchildren c hc j hj

theorem throughout_of_isLeaf (hleaf : a.isLeaf i = true) (h : Q a i) : Throughout Q a i :=
  throughout_of_children h fun _ hc => absurd hc (not_mem_children_of_isLeaf hleaf)

end Throughout

/-! ## Equal nodes -/

theorem getElem?_eq_node (hi : i < a.size) : a.nodes[i]? = some ⟨a.template i, a.children i⟩ := by
  have h : a.nodes[i]? = some a.nodes[i] := Array.getElem?_eq_getElem hi
  simp [Arena.template, Arena.children, h]

/-- Equal nodes are the same node. -/
theorem eq_of_same (hi : i < a.size) (hj : j < a.size) (hc : a.children i = a.children j)
    (ht : (a.template i == a.template j) = true) : i = j := by
  have hnode (k : Nat) (hk : k < a.size) : a.nodes[k] = ⟨a.template k, a.children k⟩ := by
    have h := getElem?_eq_node hk
    rwa [Array.getElem?_eq_getElem hk, Option.some.injEq] at h
  rcases Nat.lt_trichotomy i j with hlt | heq | hgt
  · have := a.distinct i j hi hj hlt
    simp [hnode i hi, hnode j hj, Node.same, hc, ht] at this
  · exact heq
  · have := a.distinct j i hj hi hgt
    simp [hnode i hi, hnode j hj, Node.same, hc, BEq.symm ht] at this

/-- Storing a node that is there gives the node. -/
theorem intern_eq_of_same {template : Template} {ids : List Nat} (hi : i < a.size)
    (hc : a.arrange ids = a.children i) (ht : (a.template i == template) = true) :
    a.intern template ids = (a, i) := by
  simp only [intern]
  split
  next k hk =>
    obtain ⟨hlt, hsame, -⟩ := Array.findIdx?_eq_some_iff_getElem.1 hk
    have hnode := getElem?_eq_node hlt
    rw [Array.getElem?_eq_getElem hlt, Option.some.injEq] at hnode
    simp only [hnode, Node.same, Bool.and_eq_true, beq_iff_eq] at hsame
    rw [eq_of_same hlt hi (hsame.1.trans hc) (BEq.trans hsame.2 (BEq.symm ht))]
  next hnone =>
    have hnode := getElem?_eq_node hi
    have hnew := a.fresh_of_findIdx? hnone _ (Array.mem_of_getElem? hnode)
    simp [Node.same, hc, ht] at hnew

/-- Storing a node with its own template and children gives the node. -/
theorem intern_children {ids : List Nat} (hi : i < a.size)
    (hids : ∀ c, c ∈ ids ↔ c ∈ a.children i) : a.intern (a.template i) ids = (a, i) := by
  refine intern_eq_of_same hi ?_ BEq.rfl
  refine (a.arrange_pairwise ids).eq_of_mem_iff (a.children_pairwise i) fun c => ?_
  rw [mem_arrange, hids]
  exact ⟨And.right, fun hc => ⟨Nat.lt_trans (children_lt hc) hi, hc⟩⟩

/-! ## Storing a node -/

section Intern

variable {template : Template} {ids : List Nat}

theorem mem_children_intern (hids : ∀ c ∈ ids, c < a.size) :
    j ∈ (a.intern template ids).1.children (a.intern template ids).2 ↔ j ∈ ids := by
  rw [(a.intern_same template ids).1, mem_arrange]
  exact ⟨And.right, fun h => ⟨hids j h, h⟩⟩

theorem isLeaf_intern (hids : ∀ c ∈ ids, c < a.size) :
    (a.intern template ids).1.isLeaf (a.intern template ids).2 = ids.isEmpty := by
  rw [Bool.eq_iff_iff, isLeaf_iff, List.isEmpty_iff, List.eq_nil_iff_forall_not_mem,
    List.eq_nil_iff_forall_not_mem]
  exact forall_congr' fun c => not_congr (mem_children_intern hids)

theorem reaches_intern_iff (hids : ∀ c ∈ ids, c < a.size) :
    (a.intern template ids).1.Reaches (a.intern template ids).2 j ↔
      (a.intern template ids).2 = j ∨ ∃ c ∈ ids, a.Reaches c j := by
  rw [reaches_iff_eq_or]
  refine or_congr_right (exists_congr fun c => ?_)
  rw [mem_children_intern hids]
  exact and_congr_right fun hc => (a.extends_intern template ids).reaches_iff (hids c hc)

theorem mem_leaves_intern (hids : ∀ c ∈ ids, c < a.size) (hne : ids ≠ []) :
    l ∈ (a.intern template ids).1.leaves (a.intern template ids).2 ↔ ∃ c ∈ ids, l ∈ a.leaves c := by
  have hleaf : (a.intern template ids).1.isLeaf (a.intern template ids).2 = false := by
    rw [isLeaf_intern hids]
    simpa using hne
  rw [mem_leaves_of_not_isLeaf hleaf]
  apply exists_congr
  intro c
  rw [mem_children_intern hids]
  exact and_congr_right fun hc => (a.extends_intern template ids).mem_leaves_iff (hids c hc)

end Intern

/-! ## Rebuilding -/

/-- **The rule for rebuilding.** -/
theorem rebuild_spec {σ : Type} {step : σ → Nat → List Nat → σ × Nat} {root : Nat}
    {I : σ → Prop} {P : σ → Nat → Nat → Prop}
    (hstep : ∀ s, I s → ∀ i, a.Reaches root i → ∀ images,
      List.Forall₂ (P s) (a.children i) images →
        I (step s i images).1 ∧ P (step s i images).1 i (step s i images).2 ∧
          ∀ c d, P s c d → P (step s i images).1 c d)
    {s : σ} (hs : I s) :
    I (a.rebuild step s root).1 ∧ P (a.rebuild step s root).1 root (a.rebuild step s root).2 := by
  have hsweep := sweep_spec step (fun s hs i hi => hstep s hs i (mem_arena_postorder.1 hi)) hs []
    (ordered_postorder a.children_down (Nat.lt_succ_self root) [] trivial) (by simp)
  obtain ⟨j, hj, hP⟩ := hsweep.2 root (.inl (mem_arena_postorder.2 (.refl _ _)))
  refine ⟨hsweep.1, ?_⟩
  simp only [rebuild, hj]
  exact hP

/-- **The rule for rebuilding in an arena that grows.** The arena is a part of the state, and `P` is
kept when it grows. -/
theorem rebuild_induct {σ : Type} (arena : σ → Arena) {step : σ → Nat → List Nat → σ × Nat} {root : Nat}
    {P : Arena → Nat → Nat → Prop}
    (hP : ∀ b b' i j, P b i j → b'.Extends b → P b' i j)
    (hstep : ∀ s, (arena s).Extends a → ∀ i, a.Reaches root i → ∀ images,
      List.Forall₂ (P (arena s)) (a.children i) images →
        (arena (step s i images).1).Extends (arena s) ∧
          P (arena (step s i images).1) i (step s i images).2)
    {s : σ} (hs : (arena s).Extends a) :
    (arena (a.rebuild step s root).1).Extends a ∧
      P (arena (a.rebuild step s root).1) root (a.rebuild step s root).2 := by
  refine rebuild_spec (I := fun s => (arena s).Extends a) (P := fun s => P (arena s))
    (fun s hs i hi images himages => ?_) hs
  obtain ⟨hext, himage⟩ := hstep s hs i hi images himages
  exact ⟨hext.trans hs, himage, fun c d h => hP _ _ c d h hext⟩

/-- The same for steps that leave leaves alone. -/
theorem rebuild_onInner_induct {σ : Type} (arena : σ → Arena) {step : σ → Nat → List Nat → σ × Nat}
    {root : Nat} {P : Arena → Nat → Nat → Prop}
    (hP : ∀ b b' i j, P b i j → b'.Extends b → P b' i j)
    (hself : ∀ i, a.Reaches root i → a.isLeaf i = true → P a i i)
    (hstep : ∀ s, (arena s).Extends a → ∀ i, a.Reaches root i → a.isLeaf i = false → ∀ images,
      List.Forall₂ (P (arena s)) (a.children i) images →
        (arena (step s i images).1).Extends (arena s) ∧
          P (arena (step s i images).1) i (step s i images).2)
    {s : σ} (hs : (arena s).Extends a) :
    (arena (a.rebuild (a.onInner step) s root).1).Extends a ∧
      P (arena (a.rebuild (a.onInner step) s root).1) root
        (a.rebuild (a.onInner step) s root).2 := by
  refine rebuild_induct arena (P := P) hP (fun s hs i hi images himages => ?_) hs
  unfold onInner
  split
  next hleaf => exact ⟨Extends.refl _, hP _ _ i i (hself i hi hleaf) hs⟩
  next hinner => exact hstep s hs i hi (Bool.not_eq_true _ ▸ hinner) images himages

/-- Rebuilding changes nothing if no step does. -/
theorem rebuild_eq_self {σ : Type} {step : σ → Nat → List Nat → σ × Nat} {root : Nat} {s : σ}
    (hstep : ∀ i, a.Reaches root i → step s i (a.children i) = (s, i)) :
    a.rebuild step s root = (s, root) := by
  have hsame : (a.rebuild step s root).1 = s ∧ root = (a.rebuild step s root).2 := by
    refine rebuild_spec (I := fun s' => s' = s) (P := fun _ i j => i = j)
      (fun s' hs i hi images himages => ?_) rfl
    obtain rfl : a.children i = images := by rwa [← List.forall₂_eq_eq_eq]
    subst hs
    rw [hstep i hi]
    exact ⟨rfl, rfl, fun _ _ h => h⟩
  exact Prod.ext hsame.1 hsame.2.symm

/-- The same for steps that leave leaves alone. -/
theorem rebuild_onInner_eq_self {σ : Type} {step : σ → Nat → List Nat → σ × Nat} {root : Nat} {s : σ}
    (hstep : ∀ i, a.Reaches root i → a.isLeaf i = false → step s i (a.children i) = (s, i)) :
    a.rebuild (a.onInner step) s root = (s, root) := by
  refine rebuild_eq_self fun i hi => ?_
  unfold onInner
  split
  · rfl
  next hinner => exact hstep i hi (Bool.not_eq_true _ ▸ hinner)

/-- **The rule for evaluation.** What the values of the children bring about for a node holds of
every node and its value. -/
theorem evaluate_spec {β : Type} {value : Nat → List β → β} {root : Nat} {P : Nat → β → Prop}
    (hvalue : ∀ i, a.Reaches root i → ∀ values, List.Forall₂ P (a.children i) values →
      P i (value i values))
    {i : Nat} (hi : a.Reaches root i) :
    ∃ b, (a.evaluate value root).lookup i = some b ∧ P i b := by
  have hsweep := sweep_spec (s := ()) (fun _ i values => ((), value i values))
    (I := fun _ => True) (P := fun _ => P)
    (fun _ _ i hi values hvalues =>
      ⟨trivial, hvalue i (mem_arena_postorder.1 hi) values hvalues, fun _ _ h => h⟩) trivial []
    (ordered_postorder a.children_down (Nat.lt_succ_self root) [] trivial) (by simp)
  exact hsweep.2 i (.inl (mem_arena_postorder.2 hi))

end GrammarInduction.Arena
