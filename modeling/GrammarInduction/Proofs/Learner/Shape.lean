import GrammarInduction.Proofs.Learner.Building
import GrammarInduction.Proofs.Learner.Rounds
import Mathlib.Data.List.Nodup

/-!
# The shape of learned trees

A tree learned from templates without slots stands over exactly these templates.

* `exists_built_of_learn`: learning ends in a sound state with one active template, and the tree is
  built from there.
* `mem_leaves_of_built`, `leaves_perm_of_built`: the leaves of a tree built from a sound state are
  its inputs, each once.
* `learned_shape`: leaves, coverings, and directness of the children of a learned tree.
-/

namespace GrammarInduction

open Arena

namespace LearnerState

variable {s : LearnerState} {a : Arena} {t u root : Template} {i : Nat} {inputs : List Template}

theorem isPlain_of_inputs (hinputs : ∀ u ∈ inputs, u.hasSlots = false) : ∀ u ∈ inputs, u.IsPlain :=
  fun u hu => Template.isPlain_of_not_hasSlots (hinputs u hu)

/-- The one active template is at or above every known one. -/
theorem Sound.root_above (hs : s.Sound inputs) (hinputs : ∀ u ∈ inputs, u.IsPlain)
    (hroot : s.active.only? = some root) (ht : s.Known inputs t) :
    (root == t) = true ∨ s.Above root t := by
  obtain ⟨r, hr, hrt⟩ := hs.exists_active_above hinputs ht
  have hrr : (root == r) = true := by
    simpa [OrderedSet.contains, OrderedSet.only?_eq_some_iff.1 hroot] using hr
  exact hrt.imp (fun h => BEq.trans hrr h) fun h => h.congr_left (BEq.symm hrr)

/-- Inputs without slots are never merged templates. -/
theorem Sound.not_merged (hs : s.Sound inputs) (ht : t.hasSlots = false) :
    s.children.contains t = false := by
  by_contra hcont
  have := (hs.plain t (by simpa using hcont)).2
  simp [ht] at this

/-- The unmerged templates below the one active template are the inputs. -/
theorem leafBelow_root_iff (hs : s.Sound inputs) (hinputs : ∀ u ∈ inputs, u.hasSlots = false)
    (hroot : s.active.only? = some root) : s.LeafBelow root t ↔ t ∈ inputs := by
  constructor
  · rintro ⟨hmerged, hle⟩
    have hknown : s.Known inputs t := by
      rcases hle with hrt | habove
      · exact (hs.active root (contains_of_only? hroot)).congr hrt
      · obtain ⟨p, -, hp⟩ := Relation.TransGen.tail'_iff.1 habove
        exact hs.known p t hp
    rcases hknown with ⟨u, hu, hut⟩ | hcont
    · exact Template.eq_of_beq_of_not_hasSlots hut (hinputs u hu) ▸ hu
    · simp [hcont] at hmerged
  · intro ht
    exact ⟨hs.not_merged (hinputs t ht),
      hs.root_above (isPlain_of_inputs hinputs) hroot (.inl ⟨t, ht, BEq.rfl⟩)⟩

/-- Leaves have inputs for templates, and each input is the template of a leaf. -/
theorem mem_leaves_of_built (hs : s.Sound inputs) (hinputs : ∀ u ∈ inputs, u.hasSlots = false)
    (hroot : s.active.only? = some root) (hb : s.Built a root i) :
    (∃ l ∈ a.leaves i, a.template l = t) ↔ t ∈ inputs := by
  rw [← leafBelow_root_iff hs hinputs hroot, ← hb.leaves t]
  refine exists_congr fun l => and_congr_right fun hl => ⟨fun h => beq_of_eq h, fun h => ?_⟩
  have hin : a.template l ∈ inputs :=
    (leafBelow_root_iff hs hinputs hroot).1 ((hb.leaves _).1 ⟨l, hl, BEq.rfl⟩)
  exact Template.eq_of_beq_of_not_hasSlots h (hinputs _ hin)

/-- The leaves of a tree have different templates. -/
theorem nodup_template_leaves (hi : i < a.size) : ((a.leaves i).map a.template).Nodup := by
  refine List.Nodup.map_on (fun l hl k hk h => ?_) (a.nodup_leaves i)
  obtain ⟨hl, hleaf⟩ := mem_leaves.1 hl
  obtain ⟨hk, hkleaf⟩ := mem_leaves.1 hk
  exact eq_of_same (hl.lt_size hi) (hk.lt_size hi)
    ((isLeaf_iff.1 hleaf).trans (isLeaf_iff.1 hkleaf).symm) (beq_of_eq h)

theorem mem_ofList_iff (hinputs : ∀ u ∈ inputs, u.hasSlots = false) :
    t ∈ (OrderedSet.ofList inputs).toList ↔ t ∈ inputs := by
  refine ⟨OrderedSet.mem_of_mem_ofList, fun ht => ?_⟩
  have hcont : (OrderedSet.ofList inputs).contains t = true := by
    rw [OrderedSet.contains_ofList, List.any_eq_true]
    exact ⟨t, ht, BEq.rfl⟩
  obtain ⟨u, hu, hut⟩ := OrderedSet.contains_iff.1 hcont
  have hin := hinputs u (OrderedSet.mem_of_mem_ofList hu)
  exact Template.eq_of_beq_of_not_hasSlots hut hin ▸ hu

theorem leaves_perm_of_built (hs : s.Sound inputs) (hinputs : ∀ u ∈ inputs, u.hasSlots = false)
    (hroot : s.active.only? = some root) (hb : s.Built a root i) :
    ((a.leaves i).map a.template).Perm (OrderedSet.ofList inputs).toList := by
  refine (List.perm_ext_iff_of_nodup (nodup_template_leaves hb.lt) ?_).2 fun t => ?_
  · exact (OrderedSet.ofList inputs).distinct.imp fun h heq => by simp [heq] at h
  · rw [mem_ofList_iff hinputs, List.mem_map, mem_leaves_of_built hs hinputs hroot hb]

end LearnerState

namespace Learner

variable {learner : Learner} {arena b : Arena} {templates : List Template}
  {supply supply' root : Nat}

theorem learn_eq (learner : Learner) (arena : Arena) (hne : templates ≠ []) (supply : Nat) :
    learner.learn arena templates supply = (do
      let p ← learner.run (roundBound templates) (learner.start templates supply)
      return (← p.state.buildTree arena, p.supply)) := by
  have : templates.isEmpty = false := by simpa using hne
  simp [learn, this, start]

/-- **Learning ends in a sound state**, from whose one active template the tree is built. -/
theorem exists_built_of_learn (hmin : learner.minimalVariables = true)
    (hslots : ∀ t ∈ templates, t.hasSlots = false)
    (h : learner.learn arena templates supply = .ok ((b, root), supply')) :
    ∃ s r, s.Sound templates ∧ s.active.only? = some r ∧ b.Extends arena ∧
      LearnerState.Built s b r root := by
  have hne : templates ≠ [] := by
    rintro rfl
    simp [learn] at h
  have hinputs := LearnerState.isPlain_of_inputs hslots
  rw [learn_eq learner arena hne] at h
  cases hrun : learner.run (roundBound templates) (learner.start templates supply) with
  | error e => simp [hrun, bind, Except.bind] at h
  | ok q =>
    cases hbuild : q.state.buildTree arena with
    | error e => simp [hrun, hbuild, bind, Except.bind] at h
    | ok tree =>
      obtain ⟨rfl, -⟩ : tree = (b, root) ∧ q.supply = supply' := by
        simpa [hrun, hbuild, bind, Except.bind, pure, Except.pure] using h
      have hs := (sound_of_visits hmin hinputs (visits_of_run .start hrun).1).state
      obtain ⟨r, hr, hext, hbuilt⟩ := LearnerState.built_of_buildTree hs hinputs hbuild
      exact ⟨q.state, r, hs, hr, hext, hbuilt⟩

/-- Three lines, the first of which comes again. -/
def threeLines : List Template :=
  [.ofWords ["the", "cat", "sat"], .ofWords ["the", "dog", "ran"],
    .ofWords ["a", "dog", "ran", "home"], .ofWords ["the", "cat", "sat"]]

/-- **The shape of every learned tree.** The leaves are the distinct templates learned from; every
node strictly covers its children; the root covers all that is learned from; and no child is reached
through another child of the same node. -/
theorem learned_shape (hmin : learner.minimalVariables = true)
    (hslots : ∀ t ∈ templates, t.hasSlots = false)
    (h : learner.learn arena templates supply = .ok ((b, root), supply')) :
    ((b.leaves root).map b.template).Perm (OrderedSet.ofList templates).toList ∧
      (∀ i ∈ b.descendants root, ∀ c ∈ b.children i,
        (b.template i).covers (b.template c) = true ∧ (b.template i == b.template c) = false) ∧
      (∀ t ∈ templates, (b.template root).covers t = true) ∧
      ∀ i ∈ b.descendants root, ∀ c ∈ b.children i, ∀ d ∈ b.children i, d ≠ c →
        c ∉ b.descendants d := by
  obtain ⟨s, r, hs, hr, -, hbuilt⟩ := exists_built_of_learn hmin hslots h
  have hinputs := LearnerState.isPlain_of_inputs hslots
  refine ⟨LearnerState.leaves_perm_of_built hs hslots hr hbuilt, fun i hi => ?_, fun t ht => ?_,
    fun i hi c hc d hd hne => ?_⟩
  · exact (hbuilt.tidy i (mem_descendants.1 hi)).covers
  · rw [Template.covers_congr_beq hbuilt.template BEq.rfl]
    rcases hs.root_above hinputs hr (.inl ⟨t, ht, BEq.rfl⟩) with hrt | habove
    · rw [Template.covers_congr_beq hrt BEq.rfl]
      exact Template.covers_refl t
    · exact hs.covers_of_above habove
  · rw [mem_descendants]
    exact (hbuilt.tidy i (mem_descendants.1 hi)).apart c hc d hd hne

/-- The shape of the tree over three lines, one of them given twice. -/
theorem learned_shape_of_three_lines :
    ∃ (b : Arena) (root supply' : Nat),
      ({} : Learner).learn .empty threeLines 0 = .ok ((b, root), supply') ∧
      (∀ t ∈ threeLines, t.hasSlots = false) ∧
      ((b.leaves root).map b.template).Perm (OrderedSet.ofList threeLines).toList ∧
      (∀ i ∈ b.descendants root, ∀ c ∈ b.children i,
        (b.template i).covers (b.template c) = true ∧ (b.template i == b.template c) = false) ∧
      (∀ t ∈ threeLines, (b.template root).covers t = true) ∧
      ∀ i ∈ b.descendants root, ∀ c ∈ b.children i, ∀ d ∈ b.children i, d ≠ c →
        c ∉ b.descendants d := by
  have hok : (({} : Learner).learn .empty threeLines 0).isOk = true := by decide +kernel
  have hslots : ∀ t ∈ threeLines, t.hasSlots = false := by decide
  cases h : ({} : Learner).learn .empty threeLines 0 with
  | error e => simp [h, Except.isOk, Except.toBool] at hok
  | ok result =>
    obtain ⟨⟨b, root⟩, supply'⟩ := result
    exact ⟨b, root, supply', rfl, hslots, learned_shape rfl hslots h⟩

end Learner

end GrammarInduction
