import GrammarInduction.Proofs.Arena.Below
import GrammarInduction.Proofs.Learner.Invariant
import Mathlib.Data.List.Perm.Subperm

/-!
# Building the learned tree

`Arena.Tidy a i` says of a node that it strictly covers its children and that none of them is
X
leaves are the unmerged templates at and below `t`.

* `mem_direct` and `exists_direct_above`: the direct nodes of a list are not reached through others,
  and lead to all of the list.
* `built_intern`: a node whose children are the direct ones among built nodes is built.
* `builds_buildNode`: on a sound state every template is built. A template never comes back on the
  way down, since ranks grow, and there are enough steps, since merged templates on a path differ.
-/

namespace GrammarInduction

/-- The node strictly covers its children, and none of them is reached through another one. -/
structure Arena.Tidy (a : Arena) (i : Nat) : Prop where
  covers : ∀ c ∈ a.children i, (a.template i).covers (a.template c) = true ∧
    (a.template i == a.template c) = false
  apart : ∀ c ∈ a.children i, ∀ d ∈ a.children i, d ≠ c → ¬ a.Reaches d c

namespace LearnerState

open Arena

variable {s : LearnerState} {a b : Arena} {t u p c : Template} {i j : Nat} {ids : List Nat}
  {below : OrderedSet Template} {inputs path : List Template}

/-! ## Direct nodes -/

theorem mem_direct : i ∈ direct a ids ↔ i ∈ ids ∧ ∀ j ∈ ids, j ≠ i → ¬ a.Reaches j i := by
  simp only [direct, List.mem_filter, Bool.not_eq_true', List.contains_eq_mem,
    decide_eq_false_iff_not, List.mem_flatMap, mem_strictDescendants, not_exists, not_and]
  refine and_congr_right fun _ => forall₂_congr fun j _ => ?_
  exact ⟨fun h hne hr => h hr hne.symm, fun h hr hne => h hne.symm hr⟩

/-- Every node of a list is reached from a direct one: take the greatest that it is reached from. -/
theorem exists_direct_above (hids : ∀ i ∈ ids, i < a.size) (hi : i ∈ ids) :
    ∃ d ∈ direct a ids, a.Reaches d i := by
  induction hn : a.size - i using Nat.strongRecOn generalizing i with
  | ind n ih =>
    by_cases hd : i ∈ direct a ids
    · exact ⟨i, hd, .refl _ _⟩
    · rw [mem_direct] at hd
      simp only [hi, true_and, not_forall, not_not] at hd
      obtain ⟨j, hj, hne, hr⟩ := hd
      have hlt : i < j := Nat.lt_of_le_of_ne hr.le hne.symm
      have := hids j hj
      obtain ⟨d, hd, hdj⟩ := ih (a.size - j) (by omega) hj rfl
      exact ⟨d, hd, hdj.trans hr⟩

theorem exists_mem_direct_iff (hids : ∀ i ∈ ids, i < a.size) :
    (∃ d ∈ direct a ids, a.Reaches d j) ↔ ∃ i ∈ ids, a.Reaches i j := by
  refine ⟨fun ⟨d, hd, hr⟩ => ⟨d, (mem_direct.1 hd).1, hr⟩, fun ⟨i, hi, hr⟩ => ?_⟩
  obtain ⟨d, hd, hdi⟩ := exists_direct_above hids hi
  exact ⟨d, hd, hdi.trans hr⟩

/-! ## Unmerged templates below a template -/

/-- An unmerged template at or below a template. -/
def LeafBelow (s : LearnerState) (t u : Template) : Prop :=
  s.children.contains u = false ∧ ((t == u) = true ∨ s.Above t u)

theorem LeafBelow.congr_left (h : s.LeafBelow t u) (hp : (t == p) = true) : s.LeafBelow p u :=
  ⟨h.1, h.2.imp (fun ht => BEq.trans (BEq.symm hp) ht) fun ht => ht.congr_left hp⟩

theorem leafBelow_of_get?_none (h : s.children.get? t = none) :
    s.LeafBelow t u ↔ (t == u) = true := by
  have hcont : s.children.contains t = false := by simp [OrderedMap.contains_eq_isSome, h]
  refine ⟨fun hu => hu.2.resolve_right fun habove => ?_, fun htu => ⟨?_, .inl htu⟩⟩
  · obtain ⟨c, hc, -⟩ := Relation.TransGen.head'_iff.1 habove
    simp [hc.contains] at hcont
  · rwa [← contains_children_congr s htu]

theorem under_of_mem (h : s.children.get? t = some below) (hc : c ∈ below.toList) : s.Under t c :=
  ⟨below, h, OrderedSet.contains_of_mem hc⟩

theorem leafBelow_of_get?_some (h : s.children.get? t = some below) :
    s.LeafBelow t u ↔ ∃ c ∈ below.toList, s.LeafBelow c u := by
  have hcont : s.children.contains t = true := by simp [OrderedMap.contains_eq_isSome, h]
  refine ⟨fun ⟨hu, hle⟩ => ?_, fun ⟨c, hc, hu, hle⟩ => ⟨hu, .inr ?_⟩⟩
  · rcases hle with htu | habove
    · rw [← contains_children_congr s htu, hcont] at hu
      exact absurd hu (by simp)
    · obtain ⟨c', ⟨below', hb, hc'⟩, hrest⟩ := Relation.TransGen.head'_iff.1 habove
      obtain rfl : below = below' := Option.some.inj (h.symm.trans hb)
      obtain ⟨c, hc, hcc'⟩ := OrderedSet.contains_iff.1 hc'
      refine ⟨c, hc, LeafBelow.congr_left ⟨hu, ?_⟩ (BEq.symm hcc')⟩
      rcases Relation.reflTransGen_iff_eq_or_transGen.1 hrest with rfl | habove
      · exact .inl BEq.rfl
      · exact .inr habove
  · rcases hle with hcu | habove
    · exact .single ((under_of_mem h hc).congr BEq.rfl hcu)
    · exact .head (under_of_mem h hc) habove

/-! ## Built templates -/

/-- The node `i` stands for the template `t` and what is below it. -/
structure Built (s : LearnerState) (a : Arena) (t : Template) (i : Nat) : Prop where
  lt : i < a.size
  template : (a.template i == t) = true
  tidy : ∀ j, a.Reaches i j → a.Tidy j
  plain : ∀ j, a.Reaches i j → (a.template j).IsPlain
  leaves : ∀ u, (∃ l ∈ a.leaves i, (a.template l == u) = true) ↔ s.LeafBelow t u

theorem Built.congr (h : s.Built a t i) (ht : (t == u) = true) : s.Built a u i where
  lt := h.lt
  template := BEq.trans h.template ht
  tidy := h.tidy
  plain := h.plain
  leaves v := (h.leaves v).trans
    ⟨fun hv => hv.congr_left ht, fun hv => hv.congr_left (BEq.symm ht)⟩

theorem tidy_extends (h : a.Tidy j) (hb : b.Extends a) (hj : j < a.size) : b.Tidy j where
  covers c hc := by
    rw [hb.children hj] at hc
    rw [hb.template hj, hb.template (Nat.lt_trans (children_lt hc) hj)]
    exact h.covers c hc
  apart c hc d hd hne := by
    rw [hb.children hj] at hc hd
    rw [hb.reaches_iff (Nat.lt_trans (children_lt hd) hj)]
    exact h.apart c hc d hd hne

theorem Built.extends (h : s.Built a t i) (hb : b.Extends a) : s.Built b t i where
  lt := Nat.lt_of_lt_of_le h.lt hb.size_le
  template := hb.template h.lt ▸ h.template
  tidy j hj := by
    rw [hb.reaches_iff h.lt] at hj
    exact tidy_extends (h.tidy j hj) hb (hj.lt_size h.lt)
  plain j hj := by
    rw [hb.reaches_iff h.lt] at hj
    rw [hb.template (hj.lt_size h.lt)]
    exact h.plain j hj
  leaves u := by
    rw [← h.leaves u]
    apply exists_congr
    intro l
    rw [hb.mem_leaves_iff h.lt]
    exact and_congr_right fun hl => by rw [hb.template ((mem_leaves.1 hl).1.lt_size h.lt)]

/-- An unmerged template is built by a leaf. -/
theorem built_leaf (h : s.children.get? t = none) (ht : t.IsPlain) :
    s.Built (a.leaf t).1 t (a.leaf t).2 := by
  have hchildren : (a.leaf t).1.children (a.leaf t).2 = [] := by
    rw [Arena.leaf, (a.intern_same t []).1]
    simp [arrange]
  have htemplate : ((a.leaf t).1.template (a.leaf t).2 == t) = true := (a.intern_same t []).2
  have hleaf := isLeaf_iff.2 hchildren
  refine ⟨a.intern_lt_size t [], htemplate, fun j hj => ?_, fun j hj => ?_, fun u => ?_⟩
  · rw [hj.eq_of_isLeaf hleaf]
    exact ⟨by simp [hchildren], by simp [hchildren]⟩
  · rw [hj.eq_of_isLeaf hleaf]
    exact ht.congr (BEq.symm htemplate)
  · simp only [mem_leaves_of_isLeaf hleaf, exists_eq_left, leafBelow_of_get?_none h]
    exact Bool.eq_iff_iff.1 (BEq.congr_left htemplate)

/-! ## Building -/

section Intern

variable (hs : s.Sound inputs) (h : s.children.get? t = some below)
  (hids : List.Forall₂ (s.Built a) below.toList ids)

include hids

theorem lt_of_forall_built : ∀ i ∈ ids, i < a.size := by
  intro i hi
  obtain ⟨c, -, hc⟩ := Walk.exists_of_mem_right hids hi
  exact hc.lt

theorem lt_of_mem_direct : ∀ d ∈ direct a ids, d < a.size :=
  fun d hd => lt_of_forall_built hids d (mem_direct.1 hd).1

include hs h

theorem direct_ne_nil : direct a ids ≠ [] := by
  obtain ⟨c, below', hb, hc⟩ := hs.inhabited t (by simp [OrderedMap.contains_eq_isSome, h])
  obtain rfl : below = below' := Option.some.inj (h.symm.trans hb)
  obtain ⟨c', hc', -⟩ := OrderedSet.contains_iff.1 hc
  obtain ⟨i, hi, -⟩ := Walk.exists_of_mem_left hids hc'
  obtain ⟨d, hd, -⟩ := exists_direct_above (lt_of_forall_built hids) hi
  exact List.ne_nil_of_mem hd

theorem tidy_intern : (a.intern t (direct a ids)).1.Tidy (a.intern t (direct a ids)).2 := by
  have hext := a.extends_intern t (direct a ids)
  have htemplate := (a.intern_same t (direct a ids)).2
  have hdirect := lt_of_mem_direct hids
  constructor
  · intro c hc
    rw [mem_children_intern hdirect] at hc
    obtain ⟨c', hc', hbuilt⟩ := Walk.exists_of_mem_right hids (mem_direct.1 hc).1
    obtain ⟨hcov, hdiff⟩ := hs.covers t c' (under_of_mem h hc')
    rw [hext.template (hdirect c hc), Template.covers_congr_beq htemplate hbuilt.template,
      BEq.congr_left htemplate, BEq.congr_right hbuilt.template]
    exact ⟨hcov, hdiff⟩
  · intro c hc d hd hne
    rw [mem_children_intern hdirect] at hc hd
    rw [hext.reaches_iff (hdirect d hd)]
    exact (mem_direct.1 hc).2 d (mem_direct.1 hd).1 hne

/-- A node over the direct ones among the nodes of all templates below a merged template. -/
theorem built_intern : s.Built (a.intern t (direct a ids)).1 t (a.intern t (direct a ids)).2 := by
  have hext := a.extends_intern t (direct a ids)
  have htemplate := (a.intern_same t (direct a ids)).2
  have hlt := lt_of_forall_built hids
  have hdirect := lt_of_mem_direct hids
  have hne := direct_ne_nil hs h hids
  refine ⟨a.intern_lt_size t _, htemplate, fun j hj => ?_, fun j hj => ?_, fun u => ?_⟩
  · rcases (reaches_intern_iff hdirect).1 hj with rfl | ⟨d, hd, hr⟩
    · exact tidy_intern hs h hids
    · obtain ⟨d', -, hbuilt⟩ := Walk.exists_of_mem_right hids (mem_direct.1 hd).1
      exact tidy_extends (hbuilt.tidy j hr) hext (hr.lt_size hbuilt.lt)
  · rcases (reaches_intern_iff hdirect).1 hj with rfl | ⟨d, hd, hr⟩
    · exact (hs.plain t (by simp [OrderedMap.contains_eq_isSome, h])).1.congr (BEq.symm htemplate)
    · obtain ⟨d', -, hbuilt⟩ := Walk.exists_of_mem_right hids (mem_direct.1 hd).1
      rw [hext.template (hr.lt_size hbuilt.lt)]
      exact hbuilt.plain j hr
  · rw [leafBelow_of_get?_some h]
    constructor
    · rintro ⟨l, hl, hlu⟩
      obtain ⟨d, hd, hl⟩ := (mem_leaves_intern hdirect hne).1 hl
      obtain ⟨c, hc, hbuilt⟩ := Walk.exists_of_mem_right hids (mem_direct.1 hd).1
      rw [hext.template ((mem_leaves.1 hl).1.lt_size hbuilt.lt)] at hlu
      exact ⟨c, hc, (hbuilt.leaves u).1 ⟨l, hl, hlu⟩⟩
    · rintro ⟨c, hc, hu⟩
      obtain ⟨i, hi, hbuilt⟩ := Walk.exists_of_mem_left hids hc
      obtain ⟨l, hl, hlu⟩ := (hbuilt.leaves u).2 hu
      obtain ⟨d, hd, hdl⟩ := (exists_mem_direct_iff hlt).2 ⟨i, hi, (mem_leaves.1 hl).1⟩
      refine ⟨l, (mem_leaves_intern hdirect hne).2 ⟨d, hd, mem_leaves.2 ⟨hdl, ?_⟩⟩, ?_⟩
      · exact (mem_leaves.1 hl).2
      · rwa [hext.template (hdl.lt_size (hdirect d hd))]

end Intern

/-- All templates that are done are built. -/
def Memo (s : LearnerState) (b : Building) : Prop := ∀ p ∈ b.built, s.Built b.arena p.1 p.2

theorem Memo.cons {b : Building} (h : s.Memo b) {a : Arena} (ha : a.Extends b.arena)
    (hi : s.Built a t i) : s.Memo ⟨a, (t, i) :: b.built⟩ := by
  intro p hp
  rcases List.mem_cons.1 hp with rfl | hp
  · exact hi
  · exact (h p hp).extends ha

theorem Memo.find? {b : Building} (h : s.Memo b) (hi : b.find? t = some i) :
    s.Built b.arena t i := by
  obtain ⟨p, hp, rfl⟩ := Option.map_eq_some_iff.1 hi
  exact (h p (List.mem_of_find?_eq_some hp)).congr (by simpa using List.find?_some hp)

/-- What building a template is to do. -/
structure Builds (s : LearnerState) (b : Building) (t : Template) (r : Building × Nat) : Prop where
  extends_ : r.1.arena.Extends b.arena
  memo : s.Memo r.1
  built : s.Built r.1.arena t r.2

/-- Building templates one after the other. -/
theorem foldl_builds {build : Building → Template → Building × Nat} {ts done : List Template}
    (h : ∀ t ∈ ts, ∀ b, s.Memo b → s.Builds b t (build b t)) {b : Building} (hb : s.Memo b)
    (hids : List.Forall₂ (s.Built b.arena) done ids) {r : Building × List Nat}
    (hr : ts.foldl (fun (b, ids) t => let (b, i) := build b t; (b, ids ++ [i])) (b, ids) = r) :
    r.1.arena.Extends b.arena ∧ s.Memo r.1 ∧
      List.Forall₂ (s.Built r.1.arena) (done ++ ts) r.2 := by
  obtain ⟨⟨hext, hmemo⟩, hall⟩ := Walk.foldl_collect
    (I := fun b' => b'.arena.Extends b.arena ∧ s.Memo b') (R := fun b' => s.Built b'.arena)
    (fun b' hb' t ht => by
      obtain ⟨hext, hmemo, hbuilt⟩ := h t ht b' hb'.2
      exact ⟨⟨hext.trans hb'.1, hmemo⟩, hbuilt, fun _ _ hi => hi.extends hext⟩)
    ⟨.refl _, hb⟩ hids hr
  exact ⟨hext, hmemo, hall⟩

/-! ## All templates are built -/

/-- Merged templates of falling ranks, as they stand above a template on the way down. -/
structure Path (s : LearnerState) (path : List Template) : Prop where
  falling : path.Pairwise fun p q => q.rank < p.rank
  merged : ∀ p ∈ path, s.children.contains p = true

/-- A path is no longer than there are merged templates. -/
theorem Path.length_le (h : s.Path path) : path.length ≤ s.children.size := by
  have hnodup : (path.map Template.rank).Nodup :=
    List.pairwise_map.2 (h.falling.imp fun hlt => hlt.ne')
  have hsub : path.map Template.rank ⊆ s.children.keys.map Template.rank := by
    intro r hr
    obtain ⟨p, hp, rfl⟩ := List.mem_map.1 hr
    obtain ⟨e, he, hep⟩ : ∃ e ∈ s.children.entries, (e.1 == p) = true := by
      simpa [OrderedMap.contains] using h.merged p hp
    exact List.mem_map.2 ⟨e.1, List.mem_map.2 ⟨e, he, rfl⟩, Template.rank_congr hep⟩
  have hle := (List.subperm_of_subset hnodup hsub).length_le
  simpa [OrderedMap.keys, OrderedMap.size] using hle

theorem Path.cons (h : s.Path path) (ht : s.children.contains t = true)
    (hlt : ∀ p ∈ path, p.rank < t.rank) : s.Path (t :: path) :=
  ⟨List.pairwise_cons.2 ⟨hlt, h.falling⟩, List.forall_mem_cons.2 ⟨ht, h.merged⟩⟩

/-- **Every template of a sound state is built**, if the steps and the path above it together are
more than the merged templates. -/
theorem builds_buildNode (hs : s.Sound inputs) (hinputs : ∀ u ∈ inputs, u.IsPlain) (steps : Nat)
    (hpath : s.Path path) (hlt : ∀ p ∈ path, p.rank < t.rank) (ht : s.Known inputs t)
    (hsteps : s.children.size < path.length + steps) {b : Building} (hb : s.Memo b) :
    s.Builds b t (s.buildNode steps path b t) := by
  induction steps generalizing path b t with
  | zero => exact absurd hpath.length_le (by omega)
  | succ steps ih =>
    rw [buildNode]
    cases hfind : b.find? t with
    | some i => exact ⟨.refl _, hb, hb.find? hfind⟩
    | none =>
      cases hget : s.children.get? t with
      | none =>
        have hext := b.arena.extends_intern t []
        have hnode := built_leaf (a := b.arena) hget (hs.plain_of_known hinputs ht)
        exact ⟨hext, hb.cons hext hnode, hnode⟩
      | some below =>
        have hcont : s.children.contains t = true := by simp [OrderedMap.contains_eq_isSome, hget]
        have hrank : ∀ c ∈ below.toList, ∀ p ∈ t :: path, p.rank < c.rank := by
          intro c hc p hp
          have htc := hs.rank_lt hinputs (under_of_mem hget hc)
          rcases List.mem_cons.1 hp with rfl | hp
          · exact htc
          · exact (hlt p hp).trans htc
        -- ranks grow, so that nothing comes back
        have hfilter : (below.toList.filter fun c => !(t :: path).contains c) = below.toList := by
          apply List.filter_eq_self.2
          intro c hc
          rw [Bool.not_eq_true', ← Bool.not_eq_true, List.contains_iff_exists_mem_beq]
          rintro ⟨p, hp, hcp⟩
          exact (hrank c hc p hp).ne' (Template.rank_congr hcp)
        simp only [hfilter]
        generalize hr : below.toList.foldl _ (b, []) = r
        obtain ⟨hext, hmemo, hids⟩ := foldl_builds
          (fun c hc b hb => ih (hpath.cons hcont hlt) (hrank c hc)
            (hs.known t c (under_of_mem hget hc)) (by rw [List.length_cons]; omega) hb) hb .nil hr
        have hnode := built_intern hs hget hids
        have hext' := r.1.arena.extends_intern t (direct r.1.arena r.2)
        exact ⟨hext'.trans hext, hmemo.cons hext' hnode, hnode⟩

theorem contains_of_only? (h : s.active.only? = some t) : s.active.contains t = true := by
  refine OrderedSet.contains_of_mem ?_
  rw [OrderedSet.only?_eq_some_iff.1 h]
  exact List.mem_singleton_self t

/-- The tree below the one active template of a sound state is built. -/
theorem built_of_buildTree (hs : s.Sound inputs) (hinputs : ∀ u ∈ inputs, u.IsPlain)
    (h : s.buildTree a = .ok (b, i)) :
    ∃ root, s.active.only? = some root ∧ b.Extends a ∧ s.Built b root i := by
  unfold buildTree at h
  split at h
  next root hroot =>
    have hbuild := builds_buildNode (t := root) (b := ⟨a, []⟩) hs hinputs (s.children.size + 1)
      ⟨.nil, by simp⟩ (by simp) (hs.active root (contains_of_only? hroot)) (by simp)
      (fun p hp => by simp at hp)
    obtain ⟨rfl, rfl⟩ := Prod.mk.inj (Except.ok.inj h)
    exact ⟨root, hroot, hbuild.extends_, hbuild.built⟩
  · simp at h

end LearnerState

end GrammarInduction
