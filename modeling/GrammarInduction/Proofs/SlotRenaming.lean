import GrammarInduction.Proofs.Template.Slots
import GrammarInduction.SlotRenaming
import Mathlib.Data.List.Nodup

/-!
# Renamings as one-to-one maps

A renaming is determined by the targets of its sources (`ext`). `r ≤ q` says that `q` has all pairs
of `r`. A pair can be added to a renaming if some greater renaming has it (`exists_insert?`), and the
outcome is below the greater one too; `get?_insert?` says what was added.

Any finite one-to-one relation between slots is a renaming (`exists_of_pairs`).

`names` is a renaming as a map by which templates are renamed.
-/

namespace GrammarInduction.SlotRenaming

variable {r q : SlotRenaming} {s t k source target : Slot}

/-! ## Pairs -/

/-- A renaming as a map. -/
def names (r : SlotRenaming) : OrderedMap Slot Slot :=
  ⟨r.pairs, r.ascending.imp fun h => beq_eq_false_iff_ne.2 h.2⟩

theorem get?_names (r : SlotRenaming) (s : Slot) : r.names.get? s = r.get? s := rfl

theorem get?_eq_some_iff : r.get? s = some t ↔ (s, t) ∈ r.pairs :=
  OrderedMap.get?_eq_some_iff (m := r.names)

theorem nodup_sources (r : SlotRenaming) : (r.pairs.map Prod.fst).Nodup := r.names.nodup_keys

theorem nodup_pairs (r : SlotRenaming) : r.pairs.Nodup := List.Nodup.of_map _ r.nodup_sources

theorem eq_of_get? (hs : r.get? s = some target) (ht : r.get? t = some target) : s = t := by
  have htargets : (r.pairs.map Prod.snd).Nodup := List.pairwise_map.2 r.injective
  rw [get?_eq_some_iff] at hs ht
  exact (Prod.mk.inj (List.inj_on_of_nodup_map htargets hs ht rfl)).1

/-- Renamings with the same targets are the same. -/
theorem ext (h : ∀ s, r.get? s = q.get? s) : r = q := by
  have hmem (p : Slot × Slot) : p ∈ r.pairs ↔ p ∈ q.pairs := by
    rw [← get?_eq_some_iff, ← get?_eq_some_iff, h]
  have hperm : r.pairs.Perm q.pairs :=
    (List.perm_ext_iff_of_nodup r.nodup_pairs q.nodup_pairs).2 hmem
  have hpairs : r.pairs = q.pairs := by
    refine hperm.eq_of_pairwise (fun a b _ _ hab hba => ?_) r.ascending q.ascending
    exact absurd (Slot.le_antisymm hab.1 hba.1) hab.2
  obtain ⟨pairs, _, _⟩ := r
  obtain ⟨pairs', _, _⟩ := q
  dsimp only at hpairs
  subst hpairs
  rfl

instance : LawfulBEq SlotRenaming where
  eq_of_beq {r q} h := ext fun s => by
    have hpairs : r.pairs = q.pairs := eq_of_beq h
    rw [get?, get?, hpairs]
  rfl {r} := show (r.pairs == r.pairs) = true from beq_self_eq_true _

/-! ## Greater renamings -/

instance : LE SlotRenaming := ⟨fun r q => ∀ s t, r.get? s = some t → q.get? s = some t⟩

theorem le_refl (r : SlotRenaming) : r ≤ r := fun _ _ h => h

theorem le_trans {p : SlotRenaming} (h : r ≤ q) (h' : q ≤ p) : r ≤ p :=
  fun s t hs => h' s t (h s t hs)

/-- A renaming is all of a greater one if it has all its sources. -/
theorem eq_of_le (h : r ≤ q) (hsources : ∀ s, (q.get? s).isSome → (r.get? s).isSome) : r = q := by
  refine ext fun s => ?_
  cases hr : r.get? s with
  | some t => exact (h s t hr).symm
  | none =>
    cases hq : q.get? s with
    | none => rfl
    | some t => simpa [hr] using hsources s (by simp [hq])

/-! ## Adding a pair -/

theorem mem_pairs_insert? (h : r.insert? source target = some q) {p : Slot × Slot} :
    p ∈ q.pairs ↔ p = (source, target) ∨ p ∈ r.pairs := by
  unfold insert? at h
  split at h
  next hknown =>
    obtain rfl := Option.some.inj h
    rw [List.contains_iff_mem] at hknown
    exact ⟨.inr, fun h => h.elim (fun h => h ▸ hknown) id⟩
  · split at h
    · obtain rfl := Option.some.inj h
      exact mem_insertPair
    · cases h

theorem get?_insert?_self (h : r.insert? source target = some q) : q.get? source = some target :=
  get?_eq_some_iff.2 ((mem_pairs_insert? h).2 (.inl rfl))

theorem le_of_insert? (h : r.insert? source target = some q) : r ≤ q := fun _ _ hs =>
  get?_eq_some_iff.2 ((mem_pairs_insert? h).2 (.inr (get?_eq_some_iff.1 hs)))

theorem get?_insert?_cases (h : r.insert? source target = some q) (hs : q.get? s = some t) :
    (s, t) = (source, target) ∨ r.get? s = some t :=
  ((mem_pairs_insert? h).1 (get?_eq_some_iff.1 hs)).imp_right get?_eq_some_iff.2

/-- What a greater renaming has can be added, and keeps the renaming below. -/
theorem exists_insert? (hle : r ≤ q) (h : q.get? source = some target) :
    ∃ r', r.insert? source target = some r' ∧ r' ≤ q := by
  have hbelow (r' : SlotRenaming) (hr' : r.insert? source target = some r') : r' ≤ q := by
    intro s t hs
    rcases get?_insert?_cases hr' hs with heq | hs
    · obtain ⟨rfl, rfl⟩ := Prod.mk.inj heq
      exact h
    · exact hle s t hs
  suffices ∃ r', r.insert? source target = some r' by
    obtain ⟨r', hr'⟩ := this
    exact ⟨r', hr', hbelow r' hr'⟩
  unfold insert?
  split
  · exact ⟨r, rfl⟩
  next hnew =>
    have hfree : r.mentions source target = false := by
      refine List.any_eq_false.2 fun p hp hmentions => hnew ?_
      have hq : q.get? p.1 = some p.2 := hle _ _ (get?_eq_some_iff.2 hp)
      suffices p = (source, target) by
        rw [List.contains_iff_mem, ← this]
        exact hp
      simp only [Bool.or_eq_true, beq_iff_eq] at hmentions
      rcases hmentions with hsource | htarget
      · rw [hsource, h] at hq
        exact Prod.ext hsource (Option.some.inj hq).symm
      · exact Prod.ext (eq_of_get? hq (htarget ▸ h)) htarget
    rw [dif_pos hfree]
    exact ⟨_, rfl⟩

theorem length_insertPair (p : Slot × Slot) (pairs : List (Slot × Slot)) :
    (insertPair p pairs).length = pairs.length + 1 := by
  induction pairs with
  | nil => rfl
  | cons p' pairs ih =>
    unfold insertPair
    split
    · rw [List.length_cons, ih, List.length_cons]
    · rfl

/-- A pair that is there already is not added again. -/
theorem insert?_of_known (h : r.get? source = some target) : r.insert? source target = some r := by
  rw [insert?, if_pos (List.contains_iff_mem.2 (get?_eq_some_iff.1 h))]

theorem size_insert?_of_new (h : r.insert? source target = some q) (hs : r.get? source ≠ some target) :
    r.get? source = none ∧ q.size = r.size + 1 := by
  rw [Ne, get?_eq_some_iff, ← List.contains_iff_mem] at hs
  rw [insert?, if_neg hs] at h
  split at h
  next hfree =>
    obtain rfl := Option.some.inj h
    refine ⟨?_, length_insertPair _ _⟩
    cases hget : r.get? source with
    | none => rfl
    | some t =>
      have := List.any_eq_false.1 hfree _ (get?_eq_some_iff.1 hget)
      simp at this
  · cases h

theorem exists_insert?_of_apart
    (h : ∀ p ∈ r.pairs, p.1 = source ↔ p.2 = target) :
    ∃ q, r.insert? source target = some q := by
  unfold insert?
  split
  · exact ⟨r, rfl⟩
  next hnew =>
    rw [dif_pos]
    · exact ⟨_, rfl⟩
    · refine List.any_eq_false.2 fun p hp hmentions => hnew ?_
      rw [Bool.or_eq_true, beq_iff_eq, beq_iff_eq] at hmentions
      have hsource : p.1 = source := hmentions.elim id (h p hp).2
      have hpair : p = (source, target) := Prod.ext hsource ((h p hp).1 hsource)
      exact List.contains_iff_mem.2 (hpair ▸ hp)

/-- Pairs of which no two have the same source and different targets, or the same target and different
sources, are the pairs of a renaming. -/
theorem exists_of_pairs {pairs : List (Slot × Slot)}
    (h : ∀ p ∈ pairs, ∀ q ∈ pairs, p.1 = q.1 ↔ p.2 = q.2) :
    ∃ r : SlotRenaming, ∀ s t, r.get? s = some t ↔ (s, t) ∈ pairs := by
  induction pairs with
  | nil => exact ⟨empty, fun s t => by simp [get?, empty]⟩
  | cons p pairs ih =>
    obtain ⟨r, hr⟩ := ih fun p hp q hq => h p (.tail _ hp) q (.tail _ hq)
    obtain ⟨q, hq⟩ : ∃ q, r.insert? p.1 p.2 = some q := by
      refine exists_insert?_of_apart fun p' hp' => ?_
      have hmem : p' ∈ pairs := (hr p'.1 p'.2).1 (get?_eq_some_iff.2 hp')
      exact h p' (.tail _ hmem) p List.mem_cons_self
    refine ⟨q, fun s t => ?_⟩
    rw [get?_eq_some_iff, mem_pairs_insert? hq, ← get?_eq_some_iff, hr, List.mem_cons]

/-! ## Renaming templates -/

/-- A slot by its new name. -/
def image (r : SlotRenaming) (s : Slot) : Slot := (r.names.get? s).getD s

theorem image_eq (hs : r.get? s = some t) : r.image s = t := by
  rw [image, get?_names, hs, Option.getD_some]

theorem renameToken_slot (hs : r.get? s = some t) :
    Template.renameToken r.names (.slot s) = .slot t := congrArg Token.slot (image_eq hs)

theorem rename_ofSlot (hs : r.get? s = some t) :
    (Template.ofSlot s).rename r.names = .ofSlot t := congrArg Template.ofSlot (image_eq hs)

/-- Where a renaming has all slots of a template, greater ones give the same template. -/
theorem rename_eq_of_le {u : Template} (h : r ≤ q) (hslots : ∀ s ∈ u.slots, (r.get? s).isSome) :
    u.rename q.names = u.rename r.names := by
  refine congrArg Template.mk (List.map_congr_left fun token htoken => ?_)
  cases token with
  | literal text => rfl
  | slot s =>
    obtain ⟨t, ht⟩ := Option.isSome_iff_exists.1 (hslots s (Template.mem_slots_iff.2 htoken))
    rw [renameToken_slot ht, renameToken_slot (h s t ht)]

theorem rename_names_empty (u : Template) : u.rename (empty : SlotRenaming).names = u :=
  Template.rename_empty u

/-- Renaming twice is renaming once, if slots come to the same names. -/
theorem rename_rename {p : SlotRenaming} {u : Template}
    (h : ∀ s ∈ u.slots, q.image (r.image s) = p.image s) :
    (u.rename r.names).rename q.names = u.rename p.names := by
  refine congrArg Template.mk ?_
  dsimp only [Template.rename]
  rw [List.map_map]
  refine List.map_congr_left fun token htoken => ?_
  cases token with
  | literal text => rfl
  | slot s => exact congrArg Token.slot (h s (Template.mem_slots_iff.2 htoken))

end GrammarInduction.SlotRenaming
