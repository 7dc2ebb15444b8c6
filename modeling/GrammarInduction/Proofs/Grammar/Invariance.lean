import GrammarInduction.Proofs.Grammar.Analysis
import GrammarInduction.Proofs.Grammar.Generation
import GrammarInduction.Proofs.Grammar.Isomorphism

/-!
# What isomorphic grammars have in common

Isomorphic grammars generate the same templates but for the names of slots, and the analyses do not
tell them apart (`isomorphic_grammars_agree`).

An isomorphism takes the productions and the dependencies of a slot to those of its image
(`productions_perm`, `dependencies_perm`). What is defined level by level, which are the templates
that are generated, the longest chain and the number of derivations, is carried over by induction on
the levels (`generates_iff`, `longestChain_eq`, `treeCount_eq`). The analyses are functions of these.
-/

namespace GrammarInduction

variable {g h : Grammar} {r : SlotRenaming} {s t k : Slot} {levels : Nat}

/-! ## Renaming what is filled -/

/-- Values by new names fill renamed tokens with what the values fill the tokens with, renamed. -/
theorem filledFrom_rename_iff {A B : Slot → Template → Prop}
    (hvalues : ∀ s t, r.get? s = some t → ∀ u, B t u ↔ ∃ v, A s v ∧ u = v.rename r.names)
    {x y : List Token} (hx : ∀ s, .slot s ∈ x → (r.get? s).isSome) :
    FilledFrom B (x.map (Template.renameToken r.names)) y ↔
      ∃ z, FilledFrom A x z ∧ y = z.map (Template.renameToken r.names) := by
  induction x generalizing y with
  | nil => simp [filledFrom_nil_iff]
  | cons token x ih =>
    have ih {y : List Token} := ih (y := y) fun s hs => hx s (.tail _ hs)
    cases token with
    | literal text =>
      rw [List.map_cons, Template.renameToken, filledFrom_literal_cons_iff]
      constructor
      · rintro ⟨y, rfl, hy⟩
        obtain ⟨z, hz, rfl⟩ := ih.1 hy
        exact ⟨_, .literal text hz, rfl⟩
      · rintro ⟨z, hz, rfl⟩
        obtain ⟨z, rfl, hrest⟩ := filledFrom_literal_cons_iff.1 hz
        exact ⟨_, rfl, ih.2 ⟨z, hrest, rfl⟩⟩
    | slot s =>
      obtain ⟨t, hs⟩ := Option.isSome_iff_exists.1 (hx s List.mem_cons_self)
      rw [List.map_cons, SlotRenaming.renameToken_slot hs, filledFrom_slot_cons_iff]
      constructor
      · rintro ⟨u, hu, y, rfl, hy⟩
        obtain ⟨v, hv, rfl⟩ := (hvalues s t hs u).1 hu
        obtain ⟨z, hz, rfl⟩ := ih.1 hy
        exact ⟨_, .slot hv hz, (List.map_append ..).symm⟩
      · rintro ⟨z, hz, rfl⟩
        obtain ⟨v, hv, z, rfl, hrest⟩ := filledFrom_slot_cons_iff.1 hz
        exact ⟨_, (hvalues s t hs _).2 ⟨v, hv, rfl⟩, _, List.map_append .., ih.2 ⟨z, hrest, rfl⟩⟩

namespace IsIsomorphism

variable (hr : IsIsomorphism g h r)

/-! ## The rules of a slot and of its image -/

include hr

theorem productions_perm (hs : r.get? s = some t) :
    ((g.productions s).map (Template.rename r.names)).Perm (h.productions t) :=
  (hr.rules s t hs).getD_perm

theorem isDefined_eq (hs : r.get? s = some t) : h.isDefined t = g.isDefined s := by
  rw [Grammar.isDefined, Grammar.isDefined, OrderedMap.contains_eq_isSome,
    OrderedMap.contains_eq_isSome, (hr.rules s t hs).isSome_eq]

theorem isSome_of_mem_references (hs : r.get? s = some t) (hk : k ∈ g.references s) :
    (r.get? k).isSome :=
  (hr.source_iff k).2 (((hr.source_iff s).1 (by simp [hs])).trans (Walk.reaches_of_mem hk))

/-- What is the same for a slot and its image is so for the slots of a rule and their images. -/
theorem map_image {α : Type} {f f' : Slot → α} (hs : r.get? s = some t)
    (hf : ∀ k k', r.get? k = some k' → f' k' = f k) {slots : List Slot}
    (hslots : slots ⊆ g.references s) : (slots.map r.image).map f' = slots.map f := by
  rw [List.map_map]
  refine List.map_congr_left fun k hk => ?_
  obtain ⟨k', hk'⟩ := Option.isSome_iff_exists.1 (hr.isSome_of_mem_references hs (hslots hk))
  rw [Function.comp_apply, SlotRenaming.image_eq hk', hf k k' hk']

theorem references_perm (hs : r.get? s = some t) :
    ((g.references s).map r.image).Perm (h.references t) := by
  have hslots : (g.references s).map r.image =
      ((g.productions s).map (Template.rename r.names)).flatMap Template.slots := by
    rw [Grammar.references, List.map_flatMap, List.flatMap_map]
    exact List.flatMap_congr fun p _ => (Template.slots_rename r.names p).symm
  rw [hslots]
  exact (hr.productions_perm hs).flatMap_right _

theorem dependencies_perm (hs : r.get? s = some t) :
    ((g.dependencies s).map r.image).Perm (h.dependencies t) := by
  have hfilter : (g.dependencies s).map r.image =
      ((g.references s).map r.image).filter h.isDefined := by
    rw [Grammar.dependencies, List.filter_map]
    refine congrArg (List.map _) (List.filter_congr fun k hk => ?_)
    obtain ⟨k', hk'⟩ := Option.isSome_iff_exists.1 (hr.isSome_of_mem_references hs hk)
    rw [Function.comp_apply, SlotRenaming.image_eq hk', hr.isDefined_eq hk']
  rw [hfilter]
  exact (hr.references_perm hs).filter _

/-! ## Level by level -/

theorem longestChain_eq (hs : r.get? s = some t) :
    h.longestChain levels t = g.longestChain levels s := by
  induction levels generalizing s t with
  | zero => rfl
  | succ levels ih =>
    have hperm := (hr.dependencies_perm hs).map (h.longestChain levels)
    have hsub : g.dependencies s ⊆ g.references s := List.filter_subset_self _
    rw [hr.map_image hs (fun _ _ => ih) hsub] at hperm
    rw [Grammar.longestChain, Grammar.longestChain, hr.isDefined_eq hs, hperm.foldl_eq]

theorem treeCount_eq (hs : r.get? s = some t) :
    h.treeCount levels t = g.treeCount levels s := by
  induction levels generalizing s t with
  | zero => rw [Grammar.treeCount, Grammar.treeCount, hr.isDefined_eq hs]
  | succ levels ih =>
    have hproduction : ∀ p ∈ g.productions s,
        ((p.rename r.names).slots.map (h.treeCount levels)).prod =
          (p.slots.map (g.treeCount levels)).prod := by
      intro p hp
      refine congrArg List.prod ?_
      rw [Template.slots_rename]
      exact hr.map_image hs (fun _ _ => ih) fun k hk =>
        Grammar.mem_references_of_mem_productions hp hk
    rw [Grammar.treeCount, Grammar.treeCount, hr.isDefined_eq hs,
      ← ((hr.productions_perm hs).map _).sum_eq, List.map_map]
    exact congrArg (fun counts => if g.isDefined s then List.sum counts else 1)
      (List.map_congr_left hproduction)

/-- **An image gives what the slot gives, renamed.** -/
theorem generates_iff (hs : r.get? s = some t) {u : Template} :
    h.Generates levels t u ↔ ∃ v, g.Generates levels s v ∧ u = v.rename r.names := by
  have hbare {s t : Slot} {u : Template} (hs : r.get? s = some t) :
      u = .ofSlot t ↔ ∃ v, v = Template.ofSlot s ∧ u = v.rename r.names := by
    rw [exists_eq_left, SlotRenaming.rename_ofSlot hs]
  induction levels generalizing s t u with
  | zero => exact hbare hs
  | succ levels ih =>
    have hvalues (k k' : Slot) (hk : r.get? k = some k') (u : Template) :
        h.Generates levels k' u ↔ ∃ v, g.Generates levels k v ∧ u = v.rename r.names := ih hk
    cases hrule : g.rules.get? s with
    | none =>
      have hrule' := (hr.rules s t hs).eq_none_iff.1 hrule
      simp only [Grammar.generates_of_no_rule hrule, Grammar.generates_of_no_rule hrule']
      exact hbare hs
    | some ps =>
      obtain ⟨qs, hqs, hperm⟩ := (hr.rules s t hs).exists_perm hrule
      simp only [Grammar.generates_of_rule hrule, Grammar.generates_of_rule hqs]
      have hslots {p : Template} (hp : p ∈ ps) (k : Slot) (hk : .slot k ∈ p.tokens) :
          (r.get? k).isSome := by
        refine hr.isSome_of_mem_references hs (Grammar.mem_references g hrule hp ?_)
        exact Template.mem_slots_iff.2 hk
      constructor
      · rintro ⟨q, hq, hu⟩
        obtain ⟨p, hp, rfl⟩ := List.mem_map.1 (hperm.mem_iff.2 hq)
        obtain ⟨z, hz, heq⟩ := (filledFrom_rename_iff hvalues (hslots hp)).1 hu
        exact ⟨⟨z⟩, ⟨p, hp, hz⟩, congrArg Template.mk heq⟩
      · rintro ⟨v, ⟨p, hp, hv⟩, rfl⟩
        refine ⟨_, hperm.mem_iff.1 (List.mem_map_of_mem hp), ?_⟩
        exact (filledFrom_rename_iff hvalues (hslots hp)).2 ⟨_, hv, rfl⟩

end IsIsomorphism

namespace Grammar

/-- **Isomorphic grammars mean the same.** Without anonymous slots, what the start of one gives within
any number of levels is what the start of the other gives, renamed; one is recursive if the other is,
and they have the same depth and the same number of generations. -/
theorem isomorphic_grammars_agree (hg : g.Over (·.isNamed = true)) (hh : h.Over (·.isNamed = true))
    (hr : r ∈ g.isomorphisms h) :
    g.isDefined g.start = h.isDefined h.start ∧
      (g.isDefined g.start = true → ∀ depth, ∃ own other,
        g.generateAll? g.start depth = .ok own ∧ h.generateAll? h.start depth = .ok other ∧
          ∀ u, u ∈ other.toList ↔ ∃ v ∈ own.toList, u = v.rename r.names) ∧
      g.isRecursive = h.isRecursive ∧ g.depth? = h.depth? ∧ g.generations? = h.generations? := by
  obtain ⟨hsize, hiso⟩ := mem_isomorphisms_iff.1 hr
  have hdefined := (hiso.isDefined_eq hiso.start).symm
  have hrecursive : g.isRecursive = h.isRecursive := by
    rw [Bool.eq_iff_iff, isRecursive_iff, isRecursive_iff, hiso.longestChain_eq hiso.start, hsize]
  refine ⟨hdefined, fun hstart depth => ?_, hrecursive, ?_, ?_⟩
  · refine ⟨_, _, generateAll?_eq_ok hstart, generateAll?_eq_ok (hdefined ▸ hstart), fun u => ?_⟩
    simp only [mem_generateAll_iff hh hh.start, mem_generateAll_iff hg hg.start]
    exact hiso.generates_iff hiso.start
  · rw [depth?_eq, depth?_eq, hrecursive, hsize, hiso.longestChain_eq hiso.start]
  · rw [generations?_eq, generations?_eq, hrecursive, hsize, hiso.treeCount_eq hiso.start]

/-- Greetings to someone whose name is left open. -/
def greetings : Grammar where
  start := .named "line"
  rules := (OrderedMap.empty.insert (.named "line")
      [⟨[.slot (.named "word"), .slot (.named "name")]⟩, .ofSlot (.named "name")]).insert
    (.named "word") [⟨[.literal "hello"]⟩, ⟨[.literal "dear"]⟩]

/-- The same greetings with other names and in another order. -/
def salutations : Grammar where
  start := origin
  rules := (OrderedMap.empty.insert (.named "name")
      [⟨[.literal "dear"]⟩, ⟨[.literal "hello"]⟩]).insert
    origin [.ofSlot (.named "who"), ⟨[.slot (.named "name"), .slot (.named "who")]⟩]

theorem isomorphic_grammars_agree_greetings :
    greetings.Over (·.isNamed = true) ∧ salutations.Over (·.isNamed = true) ∧
      ∃ r, r ∈ greetings.isomorphisms salutations ∧
        (∀ depth, ∃ own other, greetings.generateAll? greetings.start depth = .ok own ∧
          salutations.generateAll? salutations.start depth = .ok other ∧
            ∀ u, u ∈ other.toList ↔ ∃ v ∈ own.toList, u = v.rename r.names) ∧
        greetings.isRecursive = salutations.isRecursive ∧ greetings.depth? = salutations.depth? ∧
          greetings.generations? = salutations.generations? := by
  have hg : greetings.Over (·.isNamed = true) := over_of_entries (by decide)
  have hh : salutations.Over (·.isNamed = true) := over_of_entries (by decide)
  have hr : .ofPairs [(.named "line", origin), (.named "word", .named "name"),
      (.named "name", .named "who")] ∈ greetings.isomorphisms salutations :=
    List.contains_iff_mem.1 (by decide +kernel)
  obtain ⟨-, hgenerated, hanalyses⟩ := isomorphic_grammars_agree hg hh hr
  exact ⟨hg, hh, _, hr, hgenerated (by decide), hanalyses⟩

end Grammar

end GrammarInduction
