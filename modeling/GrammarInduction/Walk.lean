/-!
# Walks through a graph

A graph is given by the list of neighbours of each node. A walk visits the nodes that can be reached
from some nodes, each once.

* `Walk.preorder` goes in depth first and lists a node before its neighbours.
* `Walk.postorder` goes in depth first and lists a node after its neighbours.
* `Walk.breadthFirst` lists the nodes level by level.
* `Walk.edges` lists the edges in the order in which a walk in depth first meets them.
* `Walk.sweep` computes a value for each node of a list from the values of its neighbours, which
  come before it in a list in postorder.

Each walk is bounded by a number of levels; on a graph whose edges go from greater to smaller
numbers, one level more than the number of the first node is enough.
-/

namespace GrammarInduction

universe u v w

namespace Walk

variable {α : Type u} [BEq α]

/-- Nodes reached in at most `levels` levels, depth first, each before its neighbours, after those
already seen. -/
def preorder (next : α → List α) : Nat → List α → α → List α
  | 0, seen, _ => seen
  | levels + 1, seen, a =>
    if seen.contains a then seen else (next a).foldl (preorder next levels) (seen ++ [a])

/-- Nodes reached in at most `levels` levels, depth first, each after its neighbours, after those
already done. -/
def postorder (next : α → List α) : Nat → List α → α → List α
  | 0, done, _ => done
  | levels + 1, done, a =>
    if done.contains a then done else (next a).foldl (postorder next levels) done ++ [a]

/-- The members of a list that are not seen yet, each once. -/
def unseen (seen : List α) (as : List α) : List α :=
  as.foldl (fun fresh a => if seen.contains a || fresh.contains a then fresh else fresh ++ [a]) []

/-- Nodes reached from a level in at most `levels` levels, level by level, after those seen. -/
def breadthFirst (next : α → List α) : Nat → List α → List α → List α
  | 0, seen, _ => seen
  | levels + 1, seen, level =>
    let fresh := unseen seen level
    if fresh.isEmpty then seen
    else breadthFirst next levels (seen ++ fresh) (fresh.flatMap next)

/-- Nodes entered and edges met so far, and then those from `a` on. -/
def edges (next : α → List α) : Nat → List α × List (α × α) → α → List α × List (α × α)
  | 0, state, _ => state
  | levels + 1, (seen, met), a =>
    if seen.contains a then (seen, met)
    else
      (next a).foldl (fun (seen, met) b => edges next levels (seen, met ++ [(a, b)]) b)
        (a :: seen, met)

/-- Goes through a list of nodes with a state and computes a value for each, given the values of
its neighbours that came before; `known` holds the values so far. -/
def sweep {σ : Type v} {β : Type w} (next : α → List α) (step : σ → α → List β → σ × β) :
    List α → σ → List (α × β) → σ × List (α × β)
  | [], state, known => (state, known)
  | a :: rest, state, known =>
    let (state, b) := step state a ((next a).filterMap fun c => known.lookup c)
    sweep next step rest state ((a, b) :: known)

/-! ## Members not seen yet -/

section Lawful

variable [LawfulBEq α]

theorem mem_foldl_fresh {seen as fresh : List α} {a : α} :
    a ∈ as.foldl
        (fun fresh b => if seen.contains b || fresh.contains b then fresh else fresh ++ [b]) fresh ↔
      a ∈ fresh ∨ (a ∈ as ∧ a ∉ seen) := by
  induction as generalizing fresh with
  | nil => simp
  | cons b as ih =>
    rw [List.foldl_cons, ih]
    by_cases hs : b ∈ seen
    · have : a = b → ¬ a ∉ seen := by rintro rfl; simpa using hs
      simp only [List.contains_eq_mem, hs, decide_true, Bool.true_or, if_true, List.mem_cons]
      grind
    · by_cases hf : b ∈ fresh
      · simp only [List.contains_eq_mem, hs, hf, decide_true, Bool.or_true, if_true, List.mem_cons]
        grind
      · simp only [List.contains_eq_mem, hs, hf, decide_false, Bool.or_self, Bool.false_eq_true,
          if_false, List.mem_append, List.mem_cons]
        grind

theorem mem_unseen {seen as : List α} {a : α} : a ∈ unseen seen as ↔ a ∈ as ∧ a ∉ seen := by
  rw [unseen, mem_foldl_fresh]
  simp

end Lawful

/-! ## Unfolding at a node -/

theorem preorder_of_seen {next : α → List α} {levels : Nat} {seen : List α} {a : α}
    (h : seen.contains a = true) : preorder next levels seen a = seen := by
  cases levels <;> simp [preorder, h]

theorem preorder_of_new {next : α → List α} {levels : Nat} {seen : List α} {a : α}
    (h : seen.contains a = false) :
    preorder next (levels + 1) seen a = (next a).foldl (preorder next levels) (seen ++ [a]) := by
  simp [preorder, h]

theorem postorder_of_done {next : α → List α} {levels : Nat} {done : List α} {a : α}
    (h : done.contains a = true) : postorder next levels done a = done := by
  cases levels <;> simp [postorder, h]

theorem postorder_of_new {next : α → List α} {levels : Nat} {done : List α} {a : α}
    (h : done.contains a = false) :
    postorder next (levels + 1) done a = (next a).foldl (postorder next levels) done ++ [a] := by
  simp [postorder, h]

end Walk

end GrammarInduction
