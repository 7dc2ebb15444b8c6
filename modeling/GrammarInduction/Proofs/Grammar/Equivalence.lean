import GrammarInduction.Proofs.Grammar.Invariance

/-!
# Isomorphism as an equivalence

The isomorphisms that the search finds are the isomorphisms of grammars, and these can be turned
around and put one after the other: the search finds the renaming that changes nothing
(`exists_isomorphism_self`), the inverse of each renaming that it finds the other way round
(`exists_inverse`), and for two renamings found one after the other the one that does what both do
(`exists_composite`). So to be isomorphic is an equivalence of grammars (`equivalence_isIsomorphic`).

Grammars are not treated alike by the search, nor by `IsIsomorphism`: it is the start of the first one
from which the slots of a renaming are reached. An isomorphism carries what is reached in the first
grammar to what is reached in the second one and back (`reaches_target`, `exists_source`).
-/

namespace GrammarInduction

open Walk (Reaches)

variable {g h k : Grammar} {r q p : SlotRenaming} {s t : Slot}

/-! ## Corresponding rules -/

theorem Corresponds.trans {a b c : Option (List Template)} (hab : Corresponds r a b)
    (hbc : Corresponds q b c)
    (himage : ∀ ps, a = some ps → ∀ u ∈ ps, ∀ s ∈ u.slots, q.image (r.image s) = p.image s) :
    Corresponds p a c := by
  cases hab with
  | undefined =>
    cases hbc
    exact .undefined
  | @defined ps qs hps =>
    obtain ⟨us, rfl, hqs⟩ := hbc.exists_perm rfl
    refine .defined (List.Perm.trans ?_ hqs)
    have hmap : ps.map (Template.rename p.names) =
        (ps.map (Template.rename r.names)).map (Template.rename q.names) := by
      rw [List.map_map]
      exact List.map_congr_left fun u hu => (SlotRenaming.rename_rename (himage ps rfl u hu)).symm
    rw [hmap]
    exact hps.map _

theorem Corresponds.symm {a b : Option (List Template)} (h : Corresponds r a b)
    (himage : ∀ ps, a = some ps → ∀ u ∈ ps, ∀ s ∈ u.slots, q.image (r.image s) = s) :
    Corresponds q b a := by
  cases h with
  | undefined => exact .undefined
  | @defined ps qs hperm =>
    refine .defined ((hperm.symm.map _).trans ?_)
    have hback : (ps.map (Template.rename r.names)).map (Template.rename q.names) = ps := by
      rw [List.map_map]
      refine (List.map_congr_left fun u hu => ?_).trans (List.map_id ps)
      have := SlotRenaming.rename_rename (p := .empty) (himage ps rfl u hu)
      rwa [SlotRenaming.rename_names_empty] at this
    rw [hback]

theorem corresponds_self (a : Option (List Template))
    (himage : ∀ ps, a = some ps → ∀ u ∈ ps, ∀ s ∈ u.slots, r.image s = s) : Corresponds r a a := by
  cases a with
  | none => exact .undefined
  | some ps =>
    refine .defined (List.Perm.of_eq ((List.map_congr_left fun u hu => ?_).trans (List.map_id ps)))
    have := SlotRenaming.rename_rename (r := .empty) (p := .empty) (himage ps rfl u hu)
    rwa [SlotRenaming.rename_names_empty] at this

/-! ## What is reached -/

namespace IsIsomorphism

theorem isSome_of_mem_slots (hr : IsIsomorphism g h r) (hs : r.get? s = some t) {ps : List Template}
    (hps : g.rules.get? s = some ps) {u : Template} (hu : u ∈ ps) {k : Slot} (hk : k ∈ u.slots) :
    ∃ k', r.get? k = some k' :=
  Option.isSome_iff_exists.1 (hr.isSome_of_mem_references hs (Grammar.mem_references g hps hu hk))

/-- Names of slots that are reached in the first grammar are reached in the second one. -/
theorem reaches_target (hr : IsIsomorphism g h r) (hs : r.get? s = some t) :
    Reaches h.references h.start t := by
  have hreached := (hr.source_iff s).1 (by simp [hs])
  obtain ⟨t', ht', hreaches⟩ : ∃ t, r.get? s = some t ∧ Reaches h.references h.start t := by
    refine hreached.induct (P := fun s => ∃ t, r.get? s = some t ∧ Reaches h.references h.start t)
      ⟨h.start, hr.start, .refl _ _⟩ ?_
    rintro s ⟨t, ht, hreaches⟩ k hk
    obtain ⟨k', hk'⟩ := Option.isSome_iff_exists.1 (hr.isSome_of_mem_references ht hk)
    refine ⟨k', hk', hreaches.trans (Walk.reaches_of_mem ?_)⟩
    rw [← SlotRenaming.image_eq hk']
    exact (hr.references_perm ht).mem_iff.1 (List.mem_map_of_mem hk)
  rw [hs] at ht'
  exact Option.some.inj ht' ▸ hreaches

/-- Every slot that is reached in the second grammar is the name of one. -/
theorem exists_source (hr : IsIsomorphism g h r) (ht : Reaches h.references h.start t) :
    ∃ s, r.get? s = some t := by
  refine ht.induct (P := fun t => ∃ s, r.get? s = some t) ⟨g.start, hr.start⟩ ?_
  rintro t ⟨s, hs⟩ k hk
  obtain ⟨k', hk', rfl⟩ := List.mem_map.1 ((hr.references_perm hs).mem_iff.2 hk)
  obtain ⟨target, htarget⟩ := Option.isSome_iff_exists.1 (hr.isSome_of_mem_references hs hk')
  exact ⟨k', by rw [SlotRenaming.image_eq htarget, htarget]⟩

/-! ## Isomorphisms of isomorphisms -/

/-- The renaming that changes nothing is an isomorphism. -/
theorem identity (hr : ∀ s t, r.get? s = some t ↔ Reaches g.references g.start s ∧ s = t) :
    IsIsomorphism g g r where
  source_iff s := by
    rw [Option.isSome_iff_exists]
    exact ⟨fun ⟨t, ht⟩ => ((hr s t).1 ht).1, fun hs => ⟨s, (hr s s).2 ⟨hs, rfl⟩⟩⟩
  start := (hr _ _).2 ⟨.refl _ _, rfl⟩
  rules s t hs := by
    obtain ⟨hreached, rfl⟩ := (hr s t).1 hs
    refine corresponds_self _ fun ps hps u hu k hk => SlotRenaming.image_eq ((hr k k).2 ⟨?_, rfl⟩)
    exact hreached.trans (Walk.reaches_of_mem (Grammar.mem_references g hps hu hk))

/-- The inverse of an isomorphism is one. -/
theorem inverse (hr : IsIsomorphism g h r) (hq : ∀ s t, q.get? t = some s ↔ r.get? s = some t) :
    IsIsomorphism h g q where
  source_iff t := by
    rw [Option.isSome_iff_exists]
    constructor
    · rintro ⟨s, hs⟩
      exact hr.reaches_target ((hq s t).1 hs)
    · intro ht
      obtain ⟨s, hs⟩ := hr.exists_source ht
      exact ⟨s, (hq s t).2 hs⟩
  start := (hq _ _).2 hr.start
  rules t s ht := by
    have hs := (hq s t).1 ht
    refine (hr.rules s t hs).symm fun ps hps u hu k hk => ?_
    obtain ⟨k', hk'⟩ := hr.isSome_of_mem_slots hs hps hu hk
    rw [SlotRenaming.image_eq hk', SlotRenaming.image_eq ((hq k k').2 hk')]

/-- One isomorphism after the other is one. -/
theorem composite (hr : IsIsomorphism g h r) (hq : IsIsomorphism h k q)
    (hp : ∀ s t, p.get? s = some t ↔ ∃ m, r.get? s = some m ∧ q.get? m = some t) :
    IsIsomorphism g k p where
  source_iff s := by
    rw [← hr.source_iff, Option.isSome_iff_exists, Option.isSome_iff_exists]
    constructor
    · rintro ⟨t, ht⟩
      obtain ⟨m, hm, -⟩ := (hp s t).1 ht
      exact ⟨m, hm⟩
    · rintro ⟨m, hm⟩
      obtain ⟨t, ht⟩ := Option.isSome_iff_exists.1 ((hq.source_iff m).2 (hr.reaches_target hm))
      exact ⟨t, (hp s t).2 ⟨m, hm, ht⟩⟩
  start := (hp _ _).2 ⟨h.start, hr.start, hq.start⟩
  rules s t hs := by
    obtain ⟨m, hm, ht⟩ := (hp s t).1 hs
    refine (hr.rules s m hm).trans (hq.rules m t ht) fun ps hps u hu k hk => ?_
    obtain ⟨k', hk'⟩ := hr.isSome_of_mem_slots hm hps hu hk
    obtain ⟨k'', hk''⟩ := Option.isSome_iff_exists.1 ((hq.source_iff k').2 (hr.reaches_target hk'))
    rw [SlotRenaming.image_eq hk', SlotRenaming.image_eq hk'',
      SlotRenaming.image_eq ((hp k k'').2 ⟨k', hk', hk''⟩)]

end IsIsomorphism

/-! ## Renamings that are found -/

namespace Grammar

theorem exists_isomorphism_self (g : Grammar) :
    ∃ r ∈ g.isomorphisms g, ∀ s t, r.get? s = some t → s = t := by
  classical
  let sources : List Slot := (g.start :: g.slots.flatMap g.references).filter fun s =>
    Reaches g.references g.start s
  have hsources (s : Slot) : s ∈ sources ↔ Reaches g.references g.start s := by
    simp only [sources, List.mem_filter, decide_eq_true_eq, and_iff_right_iff_imp]
    exact Isomorphism.mem_of_reaches_start
  have hpair {p : Slot × Slot} : p ∈ sources.map (fun s => (s, s)) ↔
      Reaches g.references g.start p.1 ∧ p.1 = p.2 := by
    rw [List.mem_map, ← hsources]
    constructor
    · rintro ⟨s, hs, rfl⟩
      exact ⟨hs, rfl⟩
    · rintro ⟨hs, heq⟩
      exact ⟨p.1, hs, Prod.ext rfl heq⟩
  have hone : ∀ p ∈ sources.map (fun s => (s, s)), ∀ q ∈ sources.map (fun s => (s, s)),
      p.1 = q.1 ↔ p.2 = q.2 := fun p hp q hq => by rw [(hpair.1 hp).2, (hpair.1 hq).2]
  obtain ⟨r, hr⟩ := SlotRenaming.exists_of_pairs hone
  have hiso : ∀ s t, r.get? s = some t ↔ Reaches g.references g.start s ∧ s = t :=
    fun s t => (hr s t).trans hpair
  exact ⟨r, mem_isomorphisms_iff.2 ⟨rfl, .identity hiso⟩, fun s t hs => ((hiso s t).1 hs).2⟩

theorem exists_inverse (hr : r ∈ g.isomorphisms h) :
    ∃ q ∈ h.isomorphisms g, ∀ s t, q.get? t = some s ↔ r.get? s = some t := by
  obtain ⟨hsize, hiso⟩ := mem_isomorphisms_iff.1 hr
  have hpair {p : Slot × Slot} : p ∈ r.pairs.map Prod.swap ↔ r.get? p.2 = some p.1 := by
    rw [SlotRenaming.get?_eq_some_iff, List.mem_map_of_involutive Prod.swap_swap]
    rfl
  have hone : ∀ p ∈ r.pairs.map Prod.swap, ∀ q ∈ r.pairs.map Prod.swap, p.1 = q.1 ↔ p.2 = q.2 := by
    intro p hp q hq
    have hp := hpair.1 hp
    have hq := hpair.1 hq
    refine ⟨fun heq => SlotRenaming.eq_of_get? hp (heq ▸ hq), fun heq => ?_⟩
    rw [heq, hq] at hp
    exact (Option.some.inj hp).symm
  obtain ⟨q, hq⟩ := SlotRenaming.exists_of_pairs hone
  have hinverse : ∀ s t, q.get? t = some s ↔ r.get? s = some t := fun s t => (hq t s).trans hpair
  exact ⟨q, mem_isomorphisms_iff.2 ⟨hsize.symm, hiso.inverse hinverse⟩, hinverse⟩

theorem exists_composite (hr : r ∈ g.isomorphisms h) (hq : q ∈ h.isomorphisms k) :
    ∃ p ∈ g.isomorphisms k,
      ∀ s t, p.get? s = some t ↔ ∃ m, r.get? s = some m ∧ q.get? m = some t := by
  obtain ⟨hsize, hiso⟩ := mem_isomorphisms_iff.1 hr
  obtain ⟨hsize', hiso'⟩ := mem_isomorphisms_iff.1 hq
  let pairs : List (Slot × Slot) := r.pairs.filterMap fun p => (q.get? p.2).map fun t => (p.1, t)
  have hpair {p : Slot × Slot} :
      p ∈ pairs ↔ ∃ m, r.get? p.1 = some m ∧ q.get? m = some p.2 := by
    simp only [pairs, List.mem_filterMap, Option.map_eq_some_iff]
    constructor
    · rintro ⟨⟨s, m⟩, hsm, t, ht, rfl⟩
      exact ⟨m, SlotRenaming.get?_eq_some_iff.2 hsm, ht⟩
    · rintro ⟨m, hm, ht⟩
      exact ⟨(p.1, m), SlotRenaming.get?_eq_some_iff.1 hm, p.2, ht, rfl⟩
  have hone : ∀ a ∈ pairs, ∀ b ∈ pairs, a.1 = b.1 ↔ a.2 = b.2 := by
    intro a ha b hb
    obtain ⟨m, hm, ht⟩ := hpair.1 ha
    obtain ⟨m', hm', ht'⟩ := hpair.1 hb
    constructor
    · intro heq
      rw [heq, hm'] at hm
      obtain rfl := Option.some.inj hm
      exact Option.some.inj (ht.symm.trans ht')
    · intro heq
      obtain rfl := SlotRenaming.eq_of_get? ht (heq ▸ ht')
      exact SlotRenaming.eq_of_get? hm hm'
  obtain ⟨p, hp⟩ := SlotRenaming.exists_of_pairs hone
  have hcomposite : ∀ s t, p.get? s = some t ↔ ∃ m, r.get? s = some m ∧ q.get? m = some t :=
    fun s t => (hp s t).trans hpair
  exact ⟨p, mem_isomorphisms_iff.2 ⟨hsize.trans hsize', hiso.composite hiso' hcomposite⟩, hcomposite⟩

/-- **To be isomorphic is an equivalence of grammars**: every grammar is isomorphic to itself, and the
search that finds a renaming of one grammar into another one also finds one back, and through a third
grammar. -/
theorem equivalence_isIsomorphic : Equivalence fun g h : Grammar => g.isIsomorphic h = true where
  refl g := by
    obtain ⟨r, hr, -⟩ := g.exists_isomorphism_self
    exact isIsomorphic_iff.2 ⟨r, hr⟩
  symm {g h} hgh := by
    obtain ⟨r, hr⟩ := isIsomorphic_iff.1 hgh
    obtain ⟨q, hq, -⟩ := exists_inverse hr
    exact isIsomorphic_iff.2 ⟨q, hq⟩
  trans {g h k} hgh hhk := by
    obtain ⟨r, hr⟩ := isIsomorphic_iff.1 hgh
    obtain ⟨q, hq⟩ := isIsomorphic_iff.1 hhk
    obtain ⟨p, hp, -⟩ := exists_composite hr hq
    exact isIsomorphic_iff.2 ⟨p, hp⟩

end Grammar

end GrammarInduction
