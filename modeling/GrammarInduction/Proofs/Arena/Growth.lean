import GrammarInduction.Arena.Collapse
import GrammarInduction.Arena.Lattice
import GrammarInduction.Arena.Prune
import GrammarInduction.Learner
import GrammarInduction.Proofs.Arena.Below
import GrammarInduction.Proofs.Outcome

/-!
# Arenas grow

No operation takes out a node or changes one: the arena that it leaves extends the one that it was
given. What a step stores decides about the whole walk (`extends_rebuild`, `extends_foldl_collect`).

`Transformation` lists the transformations whose templates are those of the tree, up to names; merging
templates anew (`recalculate`) is not among them.
-/

namespace GrammarInduction.Arena

variable {α β σ : Type} {a b : Arena} {root : Nat}

/-! ## Walks -/

/-- Steps that only store nodes do so one after the other. -/
theorem extends_foldl_collect (arena : σ → Arena) {step : σ → α → σ × β}
    (hstep : ∀ s x, (arena (step s x).1).Extends (arena s)) (xs : List α) (s : σ) (done : List β) :
    (arena (xs.foldl (fun (s, ys) x => let (s, y) := step s x; (s, ys ++ [y])) (s, done)).1).Extends
      (arena s) := by
  induction xs generalizing s done with
  | nil => exact .refl _
  | cons x xs ih => exact (ih (step s x).1 _).trans (hstep s x)

theorem extends_rebuild (arena : σ → Arena) {step : σ → Nat → List Nat → σ × Nat}
    (hstep : ∀ s i images, (arena (step s i images).1).Extends (arena s)) (s : σ) :
    (arena (a.rebuild step s root).1).Extends (arena s) :=
  (rebuild_spec (I := fun s' => (arena s').Extends (arena s)) (P := fun _ _ _ => True)
    (fun s' hs i _ images _ => ⟨(hstep s' i images).trans hs, trivial, fun _ _ h => h⟩)
    (.refl _)).1

theorem extends_rebuild_onInner (arena : σ → Arena) {step : σ → Nat → List Nat → σ × Nat}
    (hstep : ∀ s i images, (arena (step s i images).1).Extends (arena s)) (s : σ) :
    (arena (a.rebuild (a.onInner step) s root).1).Extends (arena s) := by
  refine extends_rebuild arena (fun s i images => ?_) s
  unfold onInner
  split
  · exact .refl _
  · exact hstep s i images

/-! ## Transformations -/

theorem extends_joinGroup (b : Arena) (template : Template) (group : OrderedSet Nat) :
    (joinGroup b template group).1.Extends b := by
  unfold joinGroup
  split
  · exact .refl b
  · exact b.extends_intern _ _

theorem extends_joinGroups (b : Arena) (groups : List (Template × OrderedSet Nat)) :
    (joinGroups b groups).1.Extends b := by
  induction groups generalizing b with
  | nil => exact .refl b
  | cons group groups ih => exact (ih _).trans (extends_joinGroup b group.1 group.2)

theorem extends_collapseStep (a b : Arena) (i : Nat) (images : List Nat) :
    (collapseStep a b i images).1.Extends b :=
  (extends_intern _ _ _).trans (extends_joinGroups b _)

theorem extends_rename (names : OrderedMap Slot Slot) (a : Arena) (root : Nat) :
    (a.rename names root).1.Extends a := by
  unfold rename
  split
  · exact .refl a
  · exact extends_rebuild (fun b => b) (fun b _ _ => b.extends_intern _ _) a

theorem extends_attach (a : Arena) (extra : List (Nat × Nat)) (steps : Nat) (path : List Nat)
    (state : Arena × List (Nat × Nat)) (i : Nat) :
    (attach a extra steps path state i).1.1.Extends state.1 := by
  induction steps generalizing path state i with
  | zero => exact .refl _
  | succ steps ih =>
    simp only [attach]
    split
    · exact .refl _
    · exact (extends_intern _ _ _).trans
        (extends_foldl_collect Prod.fst (fun s c => ih (i :: path) s c) _ state [])

/-- The transformations of trees that take their templates from the tree. -/
inductive Transformation where
  | collapse
  | splice (sets : ValueSets)
  | prune
  | lattice
  | rename (names : OrderedMap Slot Slot)
  | nameSlots (source : NameSource)
  | flatten (depth : Nat)

/-- The tree that a transformation makes of the tree below a node. -/
def Transformation.apply : Transformation → Arena → Nat → Arena × Nat
  | collapse, a, root => a.collapse root
  | splice sets, a, root => a.splice sets root
  | prune, a, root => a.prune root
  | lattice, a, root => a.lattice root
  | rename names, a, root => a.rename names root
  | nameSlots source, a, root => a.nameSlots source root
  | flatten depth, a, root => a.flatten root depth

theorem extends_transform (f : Transformation) (a : Arena) (root : Nat) :
    (f.apply a root).1.Extends a := by
  cases f with
  | collapse => exact extends_rebuild_onInner (fun b => b) (extends_collapseStep a) a
  | splice sets => exact extends_rebuild_onInner (fun b => b) (fun b _ _ => b.extends_intern _ _) a
  | prune => exact extends_rebuild_onInner (fun b => b) (fun b _ _ => b.extends_intern _ _) a
  | lattice => exact extends_attach a (a.newEdges root) (a.size + 1) [] (a, []) root
  | rename names => exact extends_rename names a root
  | nameSlots source => exact extends_rename _ a root
  | flatten depth => exact a.extends_intern _ _

theorem extends_recalculate (minimalVariables : Bool) (a : Arena) (root supply : Nat) :
    (a.recalculate minimalVariables root supply).1.1.Extends a :=
  extends_rebuild_onInner (σ := Arena × Nat) Prod.fst (fun s _ _ => s.1.extends_intern _ _)
    (a, supply)

end GrammarInduction.Arena

namespace GrammarInduction

/-! ## Learning -/

theorem LearnerState.extends_buildNode (s : LearnerState) (steps : Nat) (path : List Template)
    (b : LearnerState.Building) (t : Template) :
    (s.buildNode steps path b t).1.arena.Extends b.arena := by
  induction steps generalizing path b t with
  | zero => exact b.arena.extends_intern t []
  | succ steps ih =>
    rw [buildNode]
    split
    · exact .refl _
    · split
      · exact b.arena.extends_intern t []
      · exact (Arena.extends_intern _ _ _).trans
          (Arena.extends_foldl_collect Building.arena (fun b c => ih (t :: path) b c) _ b [])

theorem LearnerState.extends_buildTree {s : LearnerState} {a : Arena} {r : Arena × Nat}
    (h : s.buildTree a = .ok r) : r.1.Extends a := by
  unfold buildTree at h
  split at h
  next root _ =>
    obtain rfl := Except.ok.inj h
    exact s.extends_buildNode (s.children.size + 1) [] ⟨a, []⟩ root
  · cases h

theorem Learner.extends_learn {learner : Learner} {a : Arena} {templates : List Template}
    {supply : Nat} {r : (Arena × Nat) × Nat} (h : learner.learn a templates supply = .ok r) :
    r.1.1.Extends a := by
  unfold learn at h
  split at h
  · cases h
  · obtain ⟨p, -, h⟩ := bind_eq_ok h
    obtain ⟨built, hbuilt, h⟩ := bind_eq_ok h
    obtain rfl := Except.ok.inj h
    exact LearnerState.extends_buildTree hbuilt

end GrammarInduction
