import GrammarInduction.Grammar.Analysis
import GrammarInduction.Grammar.Expansion
import GrammarInduction.Proofs.Walk.Search
import Mathlib.Algebra.BigOperators.Group.List.Basic
import Mathlib.Algebra.GroupWithZero.Nat
import Mathlib.Data.List.Fold
import Mathlib.Data.List.MinMax
import Mathlib.Order.Nat

/-!
# What the analyses of a grammar compute

* `dependencyOrder?_eq_none_iff`: there is no order exactly if the start leads to a defined slot that
  leads back to itself; `of_dependencyOrder?` says what an order lists.
* `depth?_eq`: the depth is the length of the longest chain of defined slots from the start
  (`longestChain`).
* `generations?_eq`: the number of generations is the number of derivation trees (`treeCount`), as far
  as a word can hold it (`saturate`).
* `isRecursive_iff`: a grammar is recursive exactly if a chain from its start is longer than all its
  rules.

Chains and trees are counted level by level; `lookup_tabulate` is the rule by which a table over an
order holds what is counted on as many levels as the table has rows.
-/

namespace GrammarInduction.Grammar

open Walk

variable {g : Grammar} {s k : Slot} {order : List Slot}

/-! ## Dependencies -/

theorem mem_dependencies_iff : k ∈ g.dependencies s ↔ k ∈ g.references s ∧ g.isDefined k = true :=
  List.mem_filter

theorem isDefined_iff_mem_slots : g.isDefined s = true ↔ s ∈ g.slots :=
  OrderedMap.contains_iff_mem_keys

theorem isDefined_of_reaches (hs : g.isDefined s = true) (h : Reaches g.dependencies s k) :
    g.isDefined k = true :=
  h.induct hs fun _ _ _ hk => (mem_dependencies_iff.1 hk).2

/-- **There is no order exactly if the start leads to a slot that leads back to itself.** -/
theorem dependencyOrder?_eq_none_iff : g.dependencyOrder? = none ↔
    g.isDefined g.start = true ∧
      ∃ s, Reaches g.dependencies g.start s ∧ Leads g.dependencies s s := by
  unfold dependencyOrder?
  split
  next hstart =>
    rw [and_iff_right hstart]
    exact ordering?_eq_none_iff (OrderedMap.nodup_keys g.rules) fun s hs =>
      isDefined_iff_mem_slots.1 (isDefined_of_reaches hstart hs)
  next hstart => simp [hstart]

/-- An order lists the defined slots that the start leads to, each once and after its
dependencies. -/
theorem of_dependencyOrder? (h : g.dependencyOrder? = some order) :
    Ordered g.dependencies [] order ∧ order.Nodup ∧
      ∀ s, s ∈ order ↔ g.isDefined g.start = true ∧ Reaches g.dependencies g.start s := by
  unfold dependencyOrder? at h
  split at h
  next hstart =>
    obtain ⟨hordered, hnodup, hmem⟩ := of_ordering? h
    exact ⟨hordered, hnodup, fun s => by rw [and_iff_right hstart, hmem]⟩
  next hstart =>
    obtain rfl := Option.some.inj h
    exact ⟨trivial, .nil, by simp [hstart]⟩

theorem isDefined_of_mem_order (h : g.dependencyOrder? = some order) (hs : s ∈ order) :
    g.isDefined s = true :=
  have hs := ((of_dependencyOrder? h).2.2 s).1 hs
  isDefined_of_reaches hs.1 hs.2

theorem length_order_le (h : g.dependencyOrder? = some order) : order.length ≤ g.rules.size := by
  have hsub : order ⊆ g.slots := fun s hs =>
    isDefined_iff_mem_slots.1 (isDefined_of_mem_order h hs)
  have := (List.subperm_of_subset (of_dependencyOrder? h).2.1 hsub).length_le
  rwa [slots, OrderedMap.keys, List.length_map] at this

/-! ## Tables over an order -/

section Tables

variable {value : List (Slot × Nat) → Slot → Nat} (val : Nat → Slot → Nat)

/-- Known values are those on as many levels as there are known values. -/
def Holds (known : List (Slot × Nat)) : Prop :=
  ∀ d, known.length ≤ d → ∀ k, known.lookup k =
    if k ∈ known.map Prod.fst then some (val d k) else none

variable {val}

theorem Holds.cons {known : List (Slot × Nat)} (h : Holds val known) {n : Nat}
    (hn : ∀ d, known.length ≤ d → n = val (d + 1) s) : Holds val ((s, n) :: known) := by
  intro d hd k
  obtain ⟨d, rfl⟩ : ∃ d', d = d' + 1 := Nat.exists_eq_add_of_le' (Nat.le_trans (by simp) hd)
  have hd' : known.length ≤ d := Nat.le_of_succ_le_succ hd
  rw [List.lookup_cons]
  by_cases hk : k = s
  · subst hk
    simp [hn d hd']
  · have hne : (k == s) = false := beq_eq_false_iff_ne.2 hk
    rw [hne, h (d + 1) (Nat.le_succ_of_le hd')]
    simp only [List.map_cons, List.mem_cons, hk, false_or]

theorem holds_foldl (hvalue : ∀ known s d, g.isDefined s = true →
      (∀ k ∈ g.references s, known.lookup k = if g.isDefined k then some (val d k) else none) →
      value known s = val (d + 1) s)
    {known : List (Slot × Nat)} (hord : Ordered g.dependencies (known.map Prod.fst) order)
    (hdefined : ∀ s ∈ known.map Prod.fst ++ order, g.isDefined s = true) (h : Holds val known) :
    Holds val (order.foldl (fun known slot => (slot, value known slot) :: known) known) := by
  induction order generalizing known with
  | nil => exact h
  | cons s order ih =>
    obtain ⟨hneighbours, hord⟩ := hord
    refine ih hord ?_ (h.cons fun d hd => hvalue known s d (hdefined s (by simp)) fun k hk => ?_)
    · intro k hk
      apply hdefined
      simp only [List.map_cons, List.cons_append, List.mem_cons, List.mem_append] at hk ⊢
      exact or_left_comm.1 hk
    · rw [h d hd]
      refine if_congr ⟨fun hmem => hdefined k (List.mem_append_left _ hmem), fun hk' => ?_⟩ rfl rfl
      exact hneighbours k (mem_dependencies_iff.2 ⟨hk, hk'⟩)

theorem map_fst_foldl {known : List (Slot × Nat)} :
    (order.foldl (fun known slot => (slot, value known slot) :: known) known).map Prod.fst =
      order.reverse ++ known.map Prod.fst := by
  induction order generalizing known with
  | nil => rfl
  | cons s order ih => simp [ih]

/-- **The rule for tables.** A table over an order holds what is counted on at least as many levels as
there are rules, if each value is counted from the values of the slots referred to. -/
theorem lookup_tabulate (val : Nat → Slot → Nat) (hvalue : ∀ known s d, g.isDefined s = true →
      (∀ k ∈ g.references s, known.lookup k = if g.isDefined k then some (val d k) else none) →
      value known s = val (d + 1) s)
    (h : g.dependencyOrder? = some order) {levels : Nat} (hlevels : g.rules.size ≤ levels) :
    (tabulate value order).lookup g.start =
      if g.isDefined g.start then some (val levels g.start) else none := by
  have hholds : Holds val (tabulate value order) :=
    holds_foldl hvalue (of_dependencyOrder? h).1 (by simpa using fun s => isDefined_of_mem_order h)
      fun _ _ _ => rfl
  have hkeys : (tabulate value order).map Prod.fst = order.reverse := by
    rw [tabulate, map_fst_foldl, List.map_nil, List.append_nil]
  have hlength : (tabulate value order).length = order.length := by
    rw [← List.length_map (f := Prod.fst), hkeys, List.length_reverse]
  rw [hholds levels (hlength ▸ Nat.le_trans (length_order_le h) hlevels), hkeys]
  refine if_congr ?_ rfl rfl
  rw [List.mem_reverse, (of_dependencyOrder? h).2.2, and_iff_left (.refl _ _)]

end Tables

/-! ## The longest chain -/

/-- The number of slots on the longest chain of defined slots, at most so many, each of which is
mentioned by a production of the one before. -/
def longestChain (g : Grammar) : Nat → Slot → Nat
  | 0, _ => 0
  | levels + 1, s =>
    if g.isDefined s then ((g.dependencies s).map (g.longestChain levels)).foldl max 0 + 1 else 0

theorem foldl_max_eq (l : List Nat) : l.foldl max 0 = l.foldr max ⊥ := List.foldl_eq_foldr

theorem longestChain_le (g : Grammar) (levels : Nat) (s : Slot) :
    g.longestChain levels s ≤ levels := by
  induction levels generalizing s with
  | zero => exact Nat.le_refl 0
  | succ levels ih =>
    rw [longestChain]
    split
    · rw [foldl_max_eq]
      refine Nat.succ_le_succ (List.max_le_of_forall_le _ _ fun n hn => ?_)
      obtain ⟨k, -, rfl⟩ := List.mem_map.1 hn
      exact ih k
    · exact Nat.zero_le _

theorem depthFrom_eq {known : List (Slot × Nat)} {levels : Nat} (hs : g.isDefined s = true)
    (h : ∀ k ∈ g.references s, known.lookup k =
      if g.isDefined k then some (g.longestChain levels k) else none) :
    g.depthFrom known s = g.longestChain (levels + 1) s := by
  have hknown : ∀ k ∈ g.dependencies s, known.lookup k = some (g.longestChain levels k) := by
    intro k hk
    obtain ⟨hk, hdefined⟩ := mem_dependencies_iff.1 hk
    rw [h k hk, if_pos hdefined]
  rw [depthFrom, longestChain, if_pos hs, List.filterMap_congr hknown, List.filterMap_eq_map']

theorem depth?_of_order (h : g.dependencyOrder? = some order) {levels : Nat}
    (hlevels : g.rules.size ≤ levels) : g.depth? = some (g.longestChain levels g.start) := by
  rw [depth?, h, Option.map_some, lookup_tabulate g.longestChain (fun _ _ _ => depthFrom_eq) h hlevels]
  split
  · rfl
  next hstart =>
    refine congrArg some ?_
    cases levels <;> simp [longestChain, hstart]

/-- **The depth is the length of the longest chain from the start**, unless the grammar is
recursive. -/
theorem depth?_eq (g : Grammar) : g.depth? =
    if g.isRecursive then none else some (g.longestChain g.rules.size g.start) := by
  rw [isRecursive]
  cases h : g.dependencyOrder? with
  | none => rw [depth?, h]; rfl
  | some order => exact depth?_of_order h (Nat.le_refl _)

/-- From a slot that leads to one that leads back to itself there are chains of all lengths. -/
theorem le_longestChain_of_leads (hs : g.isDefined s = true) (hk : Reaches g.dependencies s k)
    (hback : Leads g.dependencies k k) (levels : Nat) : levels ≤ g.longestChain levels s := by
  induction levels generalizing s k with
  | zero => exact Nat.zero_le _
  | succ levels ih =>
    obtain ⟨next, hnext, hreach⟩ :
        ∃ next ∈ g.dependencies s, Reaches g.dependencies next k := by
      rcases reaches_cases_head hk with rfl | hk
      · exact Relation.TransGen.head'_iff.1 hback
      · exact hk
    rw [longestChain, if_pos hs, foldl_max_eq]
    refine Nat.succ_le_succ (List.le_max_of_le (List.mem_map_of_mem hnext) ?_)
    exact ih (mem_dependencies_iff.1 hnext).2 hreach hback

/-- **A grammar is recursive exactly if there is a chain from its start that is longer than all its
rules.** -/
theorem isRecursive_iff (g : Grammar) : g.isRecursive = true ↔
    g.longestChain (g.rules.size + 1) g.start = g.rules.size + 1 := by
  rw [isRecursive]
  cases h : g.dependencyOrder? with
  | none =>
    obtain ⟨hstart, s, hs, hback⟩ := dependencyOrder?_eq_none_iff.1 h
    refine ⟨fun _ => Nat.le_antisymm (longestChain_le ..) ?_, fun _ => rfl⟩
    exact le_longestChain_of_leads hstart hs hback _
  | some order =>
    have hsame := (depth?_of_order h (Nat.le_succ _)).symm.trans (depth?_of_order h (Nat.le_refl _))
    have hle := longestChain_le g g.rules.size g.start
    rw [← Option.some.inj hsame] at hle
    refine ⟨nofun, fun hlong => absurd hle ?_⟩
    rw [hlong]
    exact Nat.not_succ_le_self _

/-! ## Numbers of derivations -/

/-- A count as far as a word can hold it. -/
def saturate (n : Nat) : Nat := min n maxCount

theorem addCounts_saturate (m n : Nat) :
    addCounts (saturate m) (saturate n) = saturate (m + n) := by
  simp only [addCounts, saturate]
  omega

theorem mulCounts_saturate (m n : Nat) :
    mulCounts (saturate m) (saturate n) = saturate (m * n) := by
  have hlarge {a b : Nat} (ha : maxCount ≤ a) (hb : b ≠ 0) : maxCount ≤ a * b :=
    Nat.le_trans ha (Nat.le_mul_of_pos_right a (Nat.pos_of_ne_zero hb))
  unfold mulCounts saturate
  rcases Nat.eq_zero_or_pos m with rfl | hm
  · simp
  rcases Nat.eq_zero_or_pos n with rfl | hn
  · simp
  rcases Nat.le_total m maxCount with hm' | hm'
  · rcases Nat.le_total n maxCount with hn' | hn'
    · rw [Nat.min_eq_left hm', Nat.min_eq_left hn']
    · rw [Nat.min_eq_left hm', Nat.min_eq_right hn', Nat.min_eq_right, Nat.min_eq_right]
      · exact Nat.mul_comm n m ▸ hlarge hn' (Nat.ne_of_gt hm)
      · exact Nat.mul_comm maxCount m ▸ hlarge (Nat.le_refl _) (Nat.ne_of_gt hm)
  · rw [Nat.min_eq_right hm', Nat.min_eq_right (hlarge hm' (Nat.ne_of_gt hn)), Nat.min_eq_right]
    refine hlarge (Nat.le_refl _) ?_
    rw [Nat.min_def]
    split
    · exact Nat.ne_of_gt hn
    · exact (by decide : maxCount ≠ 0)

theorem foldl_addCounts (l : List Nat) : (l.map saturate).foldl addCounts 0 = saturate l.sum := by
  have hzero : saturate 0 = 0 := Nat.zero_min _
  rw [List.foldl_map, ← hzero, List.foldl_hom saturate fun m n => addCounts_saturate m n,
    List.sum_eq_foldl]

theorem foldl_mulCounts (l : List Nat) : (l.map saturate).foldl mulCounts 1 = saturate l.prod := by
  have hone : saturate 1 = 1 := by decide
  rw [List.foldl_map, ← hone, List.foldl_hom saturate fun m n => mulCounts_saturate m n,
    List.prod_eq_foldl]

/-- The number of derivation trees of a slot on at most so many levels of defined slots. A slot
without rule is a tree. -/
def treeCount (g : Grammar) : Nat → Slot → Nat
  | 0, s => if g.isDefined s then 0 else 1
  | levels + 1, s =>
    if g.isDefined s then
      ((g.productions s).map fun p => (p.slots.map (g.treeCount levels)).prod).sum
    else 1

theorem treeCount_of_undefined (hs : g.isDefined s = false) (levels : Nat) :
    g.treeCount levels s = 1 := by
  cases levels <;> simp [treeCount, hs]

theorem countFrom_eq {known : List (Slot × Nat)} {levels : Nat} (hs : g.isDefined s = true)
    (h : ∀ k ∈ g.references s, known.lookup k =
      if g.isDefined k then some (saturate (g.treeCount levels k)) else none) :
    g.countFrom known s = saturate (g.treeCount (levels + 1) s) := by
  have hproduction : ∀ p ∈ g.productions s, derivationsFrom known p =
      saturate (p.slots.map (g.treeCount levels)).prod := by
    intro p hp
    rw [derivationsFrom, ← foldl_mulCounts, List.map_map]
    refine congrArg (List.foldl mulCounts 1) (List.map_congr_left fun k hk => ?_)
    rw [h k (mem_references_of_mem_productions hp hk)]
    split
    · rfl
    next hk =>
      rw [Function.comp_apply, treeCount_of_undefined (by simpa using hk)]
      decide
  rw [countFrom, treeCount, if_pos hs, ← foldl_addCounts, List.map_map]
  exact congrArg (List.foldl addCounts 0) (List.map_congr_left hproduction)

/-- **The number of generations is the number of derivation trees from the start**, as far as a word
can hold it, unless the grammar is recursive. -/
theorem generations?_eq (g : Grammar) : g.generations? =
    if g.isRecursive then none else some (saturate (g.treeCount g.rules.size g.start)) := by
  rw [isRecursive, generations?]
  cases h : g.dependencyOrder? with
  | none => rfl
  | some order =>
    rw [Option.map_some, lookup_tabulate (fun levels s => saturate (g.treeCount levels s))
      (fun _ _ _ => countFrom_eq) h (Nat.le_refl _)]
    refine congrArg some ?_
    split
    · rfl
    next hstart =>
      rw [treeCount_of_undefined (by simpa using hstart)]
      exact (by decide : (none : Option Nat).getD 1 = saturate 1)

end GrammarInduction.Grammar
