import GrammarInduction.Proofs.Grammar.Analysis
import Mathlib.Data.List.Chain
import Mathlib.Order.Bounds.Defs

/-!
# Recursion and depth

A grammar is recursive exactly if its start leads to a defined slot that leads back to itself. If
it is not, the dependency order lists the defined slots that the start leads to, each once and after
the defined slots in its productions, and the depth is the length of the longest chain of defined
slots from the start (`dependency_analysis_exact`).

The search behind the order follows dependencies, the defined ones among the slots referred to. As
only defined slots refer to others, nothing is missed by that (`reaches_dependencies_iff`).

Chains are lists of slots here (`IsChainFrom`), and `longestChain`, by which the depth is computed
level by level, is the length of the longest of them (`exists_chain_length_eq`,
`length_le_longestChain`).
-/

namespace GrammarInduction.Grammar

open Walk

variable {g : Grammar} {s k : Slot} {chain order : List Slot} {levels n : Nat}

/-! ## References and dependencies -/

theorem references_of_undefined (hs : g.isDefined s = false) : g.references s = [] := by
  rw [references, productions, get?_eq_none_iff.2 hs]
  rfl

theorem isDefined_of_mem_references (hk : k ∈ g.references s) : g.isDefined s = true := by
  by_contra hs
  rw [references_of_undefined (eq_false_of_ne_true hs)] at hk
  exact List.not_mem_nil hk

/-- A way between defined slots is a way of dependencies. -/
theorem reaches_dependencies_iff (hs : g.isDefined s = true) :
    Reaches g.dependencies s k ↔ Reaches g.references s k ∧ g.isDefined k = true := by
  constructor
  · intro h
    have hsub : ∀ m l, l ∈ g.dependencies m → l ∈ g.references m := fun _ _ hl =>
      (mem_dependencies_iff.1 hl).1
    exact ⟨Relation.ReflTransGen.mono hsub s k h, isDefined_of_reaches hs h⟩
  · rintro ⟨h, hk⟩
    induction h with
    | refl => exact .refl _ s
    | tail _ hmk ih =>
      exact (ih (isDefined_of_mem_references hmk)).tail (mem_dependencies_iff.2 ⟨hmk, hk⟩)

theorem leads_dependencies_iff :
    Leads g.dependencies s k ↔ Leads g.references s k ∧ g.isDefined k = true := by
  constructor
  · intro h
    have hsub : ∀ m l, l ∈ g.dependencies m → l ∈ g.references m := fun _ _ hl =>
      (mem_dependencies_iff.1 hl).1
    obtain ⟨m, -, hmk⟩ := Relation.TransGen.tail'_iff.1 h
    exact ⟨Relation.TransGen.mono hsub s k h, (mem_dependencies_iff.1 hmk).2⟩
  · rintro ⟨h, hk⟩
    induction h with
    | single hsk => exact .single (mem_dependencies_iff.2 ⟨hsk, hk⟩)
    | tail _ hmk ih =>
      exact (ih (isDefined_of_mem_references hmk)).tail (mem_dependencies_iff.2 ⟨hmk, hk⟩)

/-- Only a defined slot leads to a defined one. -/
theorem isDefined_of_reaches_defined (h : Reaches g.references s k) (hk : g.isDefined k = true) :
    g.isDefined s = true := by
  rcases reaches_cases_head h with rfl | ⟨m, hm, -⟩
  · exact hk
  · exact isDefined_of_mem_references hm

/-- **A grammar is recursive exactly if its start leads to a slot that leads back to itself.** -/
theorem isRecursive_iff_leads (g : Grammar) : g.isRecursive = true ↔
    ∃ s, g.isDefined s = true ∧ Reaches g.references g.start s ∧ Leads g.references s s := by
  rw [isRecursive, Option.isNone_iff_eq_none, dependencyOrder?_eq_none_iff]
  constructor
  · rintro ⟨hstart, s, hs, hback⟩
    obtain ⟨hs, hdefined⟩ := (reaches_dependencies_iff hstart).1 hs
    exact ⟨s, hdefined, hs, (leads_dependencies_iff.1 hback).1⟩
  · rintro ⟨s, hdefined, hs, hback⟩
    have hstart : g.isDefined g.start = true := isDefined_of_reaches_defined hs hdefined
    exact ⟨hstart, s, (reaches_dependencies_iff hstart).2 ⟨hs, hdefined⟩,
      leads_dependencies_iff.2 ⟨hback, hdefined⟩⟩

theorem mem_dependencyOrder_iff (h : g.dependencyOrder? = some order) :
    s ∈ order ↔ g.isDefined s = true ∧ Reaches g.references g.start s := by
  rw [(of_dependencyOrder? h).2.2]
  constructor
  · rintro ⟨hstart, hs⟩
    exact ((reaches_dependencies_iff hstart).1 hs).symm
  · rintro ⟨hdefined, hs⟩
    have hstart := isDefined_of_reaches_defined hs hdefined
    exact ⟨hstart, (reaches_dependencies_iff hstart).2 ⟨hs, hdefined⟩⟩

/-! ## Chains -/

/-- Defined slots, each of which is mentioned by a production of the one before; if there are any,
the first is `s`. -/
structure IsChainFrom (g : Grammar) (s : Slot) (chain : List Slot) : Prop where
  head : ∀ k ∈ chain.head?, k = s
  defined : ∀ k ∈ chain, g.isDefined k = true
  mentioned : chain.IsChain fun k l => l ∈ g.references k

theorem isChainFrom_nil (g : Grammar) (s : Slot) : g.IsChainFrom s [] := ⟨nofun, nofun, .nil⟩

theorem IsChainFrom.cons (hs : g.isDefined s = true) (hk : k ∈ g.references s)
    (h : g.IsChainFrom k chain) : g.IsChainFrom s (s :: chain) where
  head _ hl := (Option.some.inj hl).symm
  defined := List.forall_mem_cons.2 ⟨hs, h.defined⟩
  mentioned := List.isChain_cons.2 ⟨fun l hl => h.head l hl ▸ hk, h.mentioned⟩

theorem IsChainFrom.singleton (hs : g.isDefined s = true) : g.IsChainFrom s [s] where
  head _ hl := (Option.some.inj hl).symm
  defined := List.forall_mem_singleton.2 hs
  mentioned := .singleton s

/-- The rest of a chain is a chain from a dependency of the first slot. -/
theorem IsChainFrom.tail {l : Slot} (h : g.IsChainFrom s (l :: k :: chain)) :
    k ∈ g.dependencies s ∧ g.IsChainFrom k (k :: chain) := by
  obtain rfl : l = s := h.head l rfl
  obtain ⟨hk, hmentioned⟩ := List.isChain_cons_cons.1 h.mentioned
  have hdefined := (List.forall_mem_cons.1 h.defined).2
  exact ⟨mem_dependencies_iff.2 ⟨hk, hdefined k List.mem_cons_self⟩,
    fun m hm => (Option.some.inj hm).symm, hdefined, hmentioned⟩

theorem foldl_max_eq_zero_or_mem (l : List Nat) : l.foldl max 0 = 0 ∨ l.foldl max 0 ∈ l := by
  refine List.foldlRecOn l max (motive := fun m => m = 0 ∨ m ∈ l) (.inl rfl) fun m hm n hn => ?_
  rcases max_choice m n with hmax | hmax
  · rwa [hmax]
  · exact .inr (by rwa [hmax])

theorem exists_chain_length_eq (g : Grammar) (levels : Nat) (s : Slot) :
    ∃ chain, g.IsChainFrom s chain ∧ chain.length = g.longestChain levels s := by
  induction levels generalizing s with
  | zero => exact ⟨[], isChainFrom_nil g s, rfl⟩
  | succ levels ih =>
    rw [longestChain]
    split
    next hs =>
      rcases foldl_max_eq_zero_or_mem ((g.dependencies s).map (g.longestChain levels)) with
        hmax | hmax
      · exact ⟨[s], .singleton hs, by rw [hmax]; rfl⟩
      · obtain ⟨k, hk, hmax⟩ := List.mem_map.1 hmax
        obtain ⟨chain, hchain, hlength⟩ := ih k
        refine ⟨s :: chain, .cons hs (mem_dependencies_iff.1 hk).1 hchain, ?_⟩
        rw [List.length_cons, hlength, hmax]
    · exact ⟨[], isChainFrom_nil g s, rfl⟩

theorem length_le_longestChain (h : g.IsChainFrom s chain) (hlevels : chain.length ≤ levels) :
    chain.length ≤ g.longestChain levels s := by
  induction levels generalizing s chain with
  | zero => exact Nat.le_trans hlevels (Nat.zero_le _)
  | succ levels ih =>
    cases chain with
    | nil => exact Nat.zero_le _
    | cons l chain =>
      have hs : g.isDefined s = true := h.head l rfl ▸ h.defined l List.mem_cons_self
      rw [longestChain, if_pos hs, List.length_cons, foldl_max_eq]
      refine Nat.succ_le_succ ?_
      cases chain with
      | nil => exact Nat.zero_le _
      | cons k chain =>
        obtain ⟨hk, hrest⟩ := h.tail
        exact List.le_max_of_le (List.mem_map_of_mem hk) (ih hrest (Nat.le_of_succ_le_succ hlevels))

/-- The depth of a grammar that is not recursive is the number of slots on the longest chain from
its start. -/
theorem isGreatest_depth (h : g.depth? = some n) :
    IsGreatest {m | ∃ chain, g.IsChainFrom g.start chain ∧ chain.length = m} n := by
  obtain ⟨order, horder, -⟩ := Option.map_eq_some_iff.1 h
  have hdepth {levels : Nat} (hlevels : g.rules.size ≤ levels) :
      g.longestChain levels g.start = n :=
    Option.some.inj ((depth?_of_order horder hlevels).symm.trans h)
  constructor
  · obtain ⟨chain, hchain, hlength⟩ := exists_chain_length_eq g g.rules.size g.start
    exact ⟨chain, hchain, hlength.trans (hdepth (Nat.le_refl _))⟩
  · rintro m ⟨chain, hchain, rfl⟩
    rw [← hdepth (Nat.le_max_left g.rules.size chain.length)]
    exact length_le_longestChain hchain (Nat.le_max_right ..)

/-- No chain from a slot has more slots than this. -/
def ChainsWithin (g : Grammar) (levels : Nat) (s : Slot) : Prop :=
  ∀ chain, g.IsChainFrom s chain → chain.length ≤ levels

theorem chainsWithin_depth (h : g.depth? = some n) : g.ChainsWithin n g.start := fun chain hchain =>
  (isGreatest_depth h).2 ⟨chain, hchain, rfl⟩

theorem ChainsWithin.isDefined_eq_false (h : g.ChainsWithin 0 s) : g.isDefined s = false :=
  eq_false_of_ne_true fun hs => absurd (h [s] (.singleton hs)) (Nat.not_succ_le_zero 0)

theorem ChainsWithin.of_mem_references (h : g.ChainsWithin (levels + 1) s)
    (hk : k ∈ g.references s) : g.ChainsWithin levels k := fun _ hchain =>
  Nat.le_of_succ_le_succ (h _ (hchain.cons (isDefined_of_mem_references hk) hk))

theorem ChainsWithin.of_reaches (h : g.ChainsWithin levels s) (hk : Reaches g.references s k) :
    g.ChainsWithin levels k := by
  refine hk.induct h fun m hm l hl chain hchain => ?_
  exact Nat.le_of_succ_le (hm _ (hchain.cons (isDefined_of_mem_references hl) hl))

/-! ## The analysis -/

theorem isSome_dependencyOrder_iff (g : Grammar) :
    g.isRecursive = false ↔ ∃ order, g.dependencyOrder? = some order := by
  rw [isRecursive, Option.isNone_eq_false_iff, Option.isSome_iff_exists]

theorem depth?_eq_none_iff (g : Grammar) : g.depth? = none ↔ g.isRecursive = true := by
  rw [depth?, Option.map_eq_none_iff, isRecursive, Option.isNone_iff_eq_none]

/-- **The analysis of dependencies is exact.** A grammar is recursive if its start leads to a
defined slot that leads back to itself, and only then it has no depth. Otherwise the order lists the
defined slots that the start leads to, each once and after the defined slots in its productions, and
the depth is the number of slots on the longest chain from the start, none if the start is not
defined. -/
theorem dependency_analysis_exact (g : Grammar) :
    (g.isRecursive = true ↔
      ∃ s, g.isDefined s = true ∧ Reaches g.references g.start s ∧ Leads g.references s s) ∧
    (g.isRecursive = false → ∃ order n, g.dependencyOrder? = some order ∧ g.depth? = some n ∧
      order.Nodup ∧
      (∀ s, s ∈ order ↔ g.isDefined s = true ∧ Reaches g.references g.start s) ∧
      (∀ s ∈ order, ∀ k ∈ g.references s, g.isDefined k = true →
        order.idxOf k < order.idxOf s) ∧
      IsGreatest {m | ∃ chain, g.IsChainFrom g.start chain ∧ chain.length = m} n ∧
      (g.isDefined g.start = false → n = 0)) ∧
    (g.depth? = none ↔ g.isRecursive = true) := by
  refine ⟨isRecursive_iff_leads g, fun hrec => ?_, depth?_eq_none_iff g⟩
  obtain ⟨order, horder⟩ := (isSome_dependencyOrder_iff g).1 hrec
  obtain ⟨hordered, hnodup, -⟩ := of_dependencyOrder? horder
  have hdepth := depth?_of_order horder (Nat.le_refl _)
  refine ⟨order, _, horder, hdepth, hnodup, fun s => mem_dependencyOrder_iff horder, ?_,
    isGreatest_depth hdepth, fun hstart => ?_⟩
  · intro s hs k hk hdefined
    exact (idxOf_lt_of_ordered hordered hs (mem_dependencies_iff.2 ⟨hk, hdefined⟩)).resolve_left
      List.not_mem_nil
  · cases g.rules.size <;> simp [longestChain, hstart]

/-- Greetings in which a name is referred to from two rules, and twice from one of them; the titles
are left open. -/
def sharedNames : Grammar where
  start := origin
  rules := ((OrderedMap.empty.insert origin
      [⟨[.slot (.named "who"), .literal "meets", .slot (.named "who")]⟩,
        ⟨[.slot (.named "greeting")]⟩]).insert
    (.named "greeting") [⟨[.literal "hello", .slot (.named "who")]⟩]).insert
      (.named "who") [⟨[.slot (.named "title"), .literal "Ann"]⟩, ⟨[.literal "Bob"]⟩]

theorem dependency_analysis_exact_sharedNames :
    sharedNames.isRecursive = false ∧
      ∃ order n, sharedNames.dependencyOrder? = some order ∧ sharedNames.depth? = some n ∧
        order.Nodup ∧
        (∀ s, s ∈ order ↔ sharedNames.isDefined s = true ∧
          Reaches sharedNames.references sharedNames.start s) ∧
        (∀ s ∈ order, ∀ k ∈ sharedNames.references s, sharedNames.isDefined k = true →
          order.idxOf k < order.idxOf s) ∧
        IsGreatest {m | ∃ chain, sharedNames.IsChainFrom sharedNames.start chain ∧
          chain.length = m} n ∧
        (sharedNames.isDefined sharedNames.start = false → n = 0) :=
  have hrec : sharedNames.isRecursive = false := by decide
  ⟨hrec, (dependency_analysis_exact sharedNames).2.1 hrec⟩

example : sharedNames.depth? = some 3 := by decide

end GrammarInduction.Grammar
