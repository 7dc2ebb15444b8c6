import GrammarInduction.Proofs.Grammar.Recursion
import Mathlib.Algebra.BigOperators.Fin
import Mathlib.Data.Finite.Sigma
import Mathlib.SetTheory.Cardinal.Finite

/-!
# Derivation trees

`Tree g s` is the type of the derivation trees of a slot. In a grammar that is not recursive there
are finitely many from the start, and the number of generations is their number, as far as a word can
hold it (`generations?_exact`).

`card_tree` and `card_tree_of_undefined` count the trees of a slot by those of the slots in its
productions, and so does `treeCount` level by level; the two agree where chains are no longer than
there are levels (`card_tree_eq_treeCount`).
-/

namespace GrammarInduction.Grammar

open Walk

variable {g : Grammar} {s : Slot} {slots : List Slot} {levels n : Nat}

/-! ## Trees and forests -/

mutual

/-- A derivation tree of a slot. A slot that is not defined stands for itself; for a defined one a
production is chosen by its place, and a tree for each occurrence of a slot in it. -/
inductive Tree (g : Grammar) : Slot → Type
  | bare {s : Slot} (hs : g.isDefined s = false) : Tree g s
  | rule {s : Slot} (hs : g.isDefined s = true) (i : Fin (g.productions s).length)
      (below : Forest g (g.productions s)[i].slots) : Tree g s

/-- Derivation trees of some slots, one for each. -/
inductive Forest (g : Grammar) : List Slot → Type
  | nil : Forest g []
  | cons {s : Slot} {slots : List Slot} (first : Tree g s) (rest : Forest g slots) :
      Forest g (s :: slots)

end

/-- A tree of a defined slot is a production with a forest. -/
def treeEquiv (hs : g.isDefined s = true) :
    g.Tree s ≃ Σ i : Fin (g.productions s).length, g.Forest (g.productions s)[i].slots where
  toFun
    | .bare h => absurd hs (ne_true_of_eq_false h)
    | .rule _ i below => ⟨i, below⟩
  invFun x := .rule hs x.1 x.2
  left_inv
    | .bare h => absurd hs (ne_true_of_eq_false h)
    | .rule _ _ _ => rfl
  right_inv _ := rfl

/-- A forest is a tree and a forest of the other slots. -/
def forestEquiv : g.Forest (s :: slots) ≃ g.Tree s × g.Forest slots where
  toFun
    | .cons first rest => (first, rest)
  invFun x := .cons x.1 x.2
  left_inv
    | .cons _ _ => rfl
  right_inv _ := rfl

theorem card_forest (slots : List Slot) :
    Nat.card (g.Forest slots) = (slots.map fun s => Nat.card (g.Tree s)).prod := by
  induction slots with
  | nil => exact Nat.card_eq_one_iff_exists.2 ⟨.nil, fun | .nil => rfl⟩
  | cons s slots ih =>
    rw [Nat.card_congr forestEquiv, Nat.card_prod, ih, List.map_cons, List.prod_cons]

theorem finite_forest (h : ∀ s ∈ slots, Finite (g.Tree s)) : Finite (g.Forest slots) := by
  induction slots with
  | nil =>
    have : Subsingleton (g.Forest []) := ⟨fun | .nil, .nil => rfl⟩
    infer_instance
  | cons s slots ih =>
    have := h s List.mem_cons_self
    have := ih fun k hk => h k (.tail _ hk)
    exact .of_equiv _ forestEquiv.symm

/-! ## Numbers of trees -/

theorem card_tree_of_undefined (hs : g.isDefined s = false) : Nat.card (g.Tree s) = 1 := by
  refine Nat.card_eq_one_iff_exists.2 ⟨.bare hs, fun t => ?_⟩
  cases t with
  | bare => rfl
  | rule h => exact absurd h (ne_true_of_eq_false hs)

theorem finite_tree (h : ∀ k ∈ g.references s, Finite (g.Tree k)) : Finite (g.Tree s) := by
  cases hs : g.isDefined s with
  | false => exact Nat.finite_of_card_ne_zero (card_tree_of_undefined hs ▸ Nat.one_ne_zero)
  | true =>
    have (i : Fin (g.productions s).length) : Finite (g.Forest (g.productions s)[i].slots) :=
      finite_forest fun k hk => h k (mem_references_of_mem_productions (List.getElem_mem _) hk)
    exact .of_equiv _ (treeEquiv hs).symm

/-- The trees of a slot, production by production. -/
theorem card_tree (hs : g.isDefined s = true) (h : ∀ k ∈ g.references s, Finite (g.Tree k)) :
    Nat.card (g.Tree s) =
      ((g.productions s).map fun p => (p.slots.map fun k => Nat.card (g.Tree k)).prod).sum := by
  have (i : Fin (g.productions s).length) : Finite (g.Forest (g.productions s)[i].slots) :=
    finite_forest fun k hk => h k (mem_references_of_mem_productions (List.getElem_mem _) hk)
  rw [Nat.card_congr (treeEquiv hs), Nat.card_sigma, ← Fin.sum_univ_fun_getElem]
  exact Finset.sum_congr rfl fun i _ => card_forest _

theorem card_tree_eq_treeCount (h : g.ChainsWithin levels s) :
    Finite (g.Tree s) ∧ Nat.card (g.Tree s) = g.treeCount levels s := by
  induction levels generalizing s with
  | zero =>
    have hs := h.isDefined_eq_false
    have hcard := card_tree_of_undefined hs
    exact ⟨Nat.finite_of_card_ne_zero (hcard ▸ Nat.one_ne_zero),
      hcard.trans (treeCount_of_undefined hs 0).symm⟩
  | succ levels ih =>
    have hbelow : ∀ k ∈ g.references s,
        Finite (g.Tree k) ∧ Nat.card (g.Tree k) = g.treeCount levels k := fun k hk =>
      ih (h.of_mem_references hk)
    refine ⟨finite_tree fun k hk => (hbelow k hk).1, ?_⟩
    cases hs : g.isDefined s with
    | false => rw [card_tree_of_undefined hs, treeCount_of_undefined hs]
    | true =>
      rw [card_tree hs fun k hk => (hbelow k hk).1, treeCount, if_pos hs]
      refine congrArg List.sum (List.map_congr_left fun p hp => congrArg List.prod ?_)
      exact List.map_congr_left fun k hk => (hbelow k (mem_references_of_mem_productions hp hk)).2

/-! ## Counting -/

theorem saturate_eq (n : Nat) : saturate n = min n (2 ^ 64 - 1) := rfl

theorem chainsWithin_size (hrec : g.isRecursive = false) : g.ChainsWithin g.rules.size g.start := by
  obtain ⟨order, horder⟩ := (isSome_dependencyOrder_iff g).1 hrec
  have hdepth := chainsWithin_depth (depth?_of_order horder (Nat.le_refl _))
  exact fun chain hchain => Nat.le_trans (hdepth chain hchain) (longestChain_le ..)

theorem generations?_eq_card (hrec : g.isRecursive = false) :
    g.generations? = some (min (Nat.card (g.Tree g.start)) (2 ^ 64 - 1)) := by
  rw [generations?_eq, if_neg (by simp [hrec]), saturate_eq,
    (card_tree_eq_treeCount (chainsWithin_size hrec)).2]

/-- **Counting is exact.** The number of generations of a grammar that is not recursive is the
number of derivation trees from its start, or the greatest number of 64 bits if that is less. There
are finitely many trees of each slot that the start leads to: one if it is not defined, and otherwise
those of its productions, counted place by place, each as many as there are choices of a tree for
every occurrence of a slot. A recursive grammar has no number of generations. -/
theorem generations?_exact (g : Grammar) :
    (g.isRecursive = false →
      g.generations? = some (min (Nat.card (g.Tree g.start)) (2 ^ 64 - 1)) ∧
      ∀ s, Reaches g.references g.start s → Finite (g.Tree s) ∧
        Nat.card (g.Tree s) =
          if g.isDefined s then
            ((g.productions s).map fun p => (p.slots.map fun k => Nat.card (g.Tree k)).prod).sum
          else 1) ∧
    (g.generations? = none ↔ g.isRecursive = true) := by
  constructor
  · intro hrec
    refine ⟨generations?_eq_card hrec, fun s hs => ?_⟩
    have hfinite {k : Slot} (hk : Reaches g.references g.start k) : Finite (g.Tree k) :=
      (card_tree_eq_treeCount ((chainsWithin_size hrec).of_reaches hk)).1
    refine ⟨hfinite hs, ?_⟩
    split
    next hdefined => exact card_tree hdefined fun k hk => hfinite (hs.trans (reaches_of_mem hk))
    next hdefined => exact card_tree_of_undefined (eq_false_of_ne_true hdefined)
  · rw [generations?_eq]
    split <;> simp_all

/-- Pairs of pairs and so on, of which there are more than a word can hold, and one text that cannot
be finished. -/
def pairedPairs : Grammar where
  start := origin
  rules := ((((((((OrderedMap.empty.insert origin
      [⟨[.slot (.named "a"), .slot (.named "a")]⟩,
        ⟨[.slot (.named "a"), .slot (.named "none")]⟩]).insert
    (.named "a") [⟨[.slot (.named "b"), .slot (.named "b")]⟩]).insert
    (.named "b") [⟨[.slot (.named "c"), .slot (.named "c")]⟩]).insert
    (.named "c") [⟨[.slot (.named "d"), .slot (.named "d")]⟩]).insert
    (.named "d") [⟨[.slot (.named "e"), .slot (.named "e")]⟩]).insert
    (.named "e") [⟨[.slot (.named "f"), .slot (.named "f")]⟩]).insert
    (.named "f") [⟨[.literal "0"]⟩, ⟨[.literal "1"]⟩]).insert
    (.named "none") [])

theorem generations?_exact_pairedPairs :
    pairedPairs.isRecursive = false ∧
      pairedPairs.generations? =
        some (min (Nat.card (pairedPairs.Tree pairedPairs.start)) (2 ^ 64 - 1)) ∧
      ∀ s, Reaches pairedPairs.references pairedPairs.start s → Finite (pairedPairs.Tree s) ∧
        Nat.card (pairedPairs.Tree s) =
          if pairedPairs.isDefined s then
            ((pairedPairs.productions s).map fun p =>
              (p.slots.map fun k => Nat.card (pairedPairs.Tree k)).prod).sum
          else 1 :=
  have hrec : pairedPairs.isRecursive = false := by decide
  ⟨hrec, (generations?_exact pairedPairs).1 hrec⟩

example : pairedPairs.generations? = some (2 ^ 64 - 1) := by decide

end GrammarInduction.Grammar
