import GrammarInduction.Induction
import GrammarInduction.Proofs.Arena.Collapsing
import GrammarInduction.Proofs.Arena.Naming
import GrammarInduction.Proofs.Arena.Values
import GrammarInduction.Proofs.Grammar.ReadOff

/-!
# Trees on the way to a grammar

A tree carries templates if they are the templates of its leaves (`Carries`). Each stage of
induction hands on a tree that carries the same templates, and sees to what the next stage needs of
its slots: `carries_simplify` names them all, and merging and renaming bring in no other names.
From a tree whose slots are named, and none kept for the start, a grammar can be read off that
derives all templates and defines all slots (`covers_readOff`).
-/

namespace GrammarInduction.Induction

open Arena Grammar

variable {P Q : Slot → Prop} {inputs : List Template} {a b : Arena} {root i : Nat} {t : Template}

/-- The leaves at or below a node have the given templates, and all slots at or below it have a
property. -/
structure Carries (P : Slot → Prop) (inputs : List Template) (a : Arena) (root : Nat) : Prop where
  lt : root < a.size
  leaves : ∀ t, (∃ l ∈ a.leaves root, a.template l = t) ↔ t ∈ inputs
  slots : ∀ i, a.Reaches root i → (a.template i).Over P

namespace Carries

theorem mono (h : Carries P inputs a root) (hPQ : ∀ s, P s → Q s) : Carries Q inputs a root :=
  ⟨h.lt, h.leaves, fun i hi s hs => hPQ s (h.slots i hi s hs)⟩

theorem of_image {j : Nat} (h : Carries P inputs a i) (hext : b.Extends a)
    (himage : Image Q a b i j) : Carries Q inputs b j where
  lt := himage.lt
  leaves t := by
    rw [← h.leaves]
    apply exists_congr
    intro l
    rw [himage.leaves]
    apply and_congr_right
    intro hl
    rw [hext.template ((mem_leaves.1 hl).1.lt_size h.lt)]
  slots := himage.slots

theorem of_extends (h : Carries P inputs a root) (hext : b.Extends a) : Carries P inputs b root :=
  h.of_image hext ((image_self h.lt h.slots).of_extends hext)

theorem free (h : Carries P inputs a root) (hinputs : ∀ t ∈ inputs, t.hasSlots = false) :
    ∀ l ∈ a.leaves root, (a.template l).hasSlots = false :=
  fun l hl => hinputs _ ((h.leaves _).1 ⟨l, hl, rfl⟩)

end Carries

/-! ## Reading off -/

section ReadOff

variable {v : SlotValues}

/-- Every slot of a tree over templates without slots has values. -/
theorem contains_of_mem_slots (h : Carries P inputs a root)
    (hinputs : ∀ t ∈ inputs, t.hasSlots = false) (hv : a.slotValues? root = .ok v)
    (hi : a.Reaches root i) {s : Slot} (hs : s ∈ (a.template i).slots) : v.contains s = true := by
  have hinner : a.isLeaf i = false := by
    by_contra hleaf
    have hfree := h.free hinputs i (mem_leaves.2 ⟨hi, Bool.not_eq_false _ ▸ hleaf⟩)
    rw [Template.slots_eq_nil hfree] at hs
    cases hs
  obtain ⟨c, hc⟩ := exists_mem_children hinner
  obtain ⟨filling, hfilling, hlists⟩ := exists_filling_of_slotValues? hv hi hc
  obtain ⟨n, hn, rfl⟩ := List.getElem_of_mem hs
  have hn' : n < filling.length := by rwa [Template.length_of_mem_fillings hfilling]
  have hmem : ((a.template i).slots[n], filling[n]) ∈ (a.template i).slots.zip filling := by
    rw [← List.getElem_zip (h := by rw [List.length_zip]; omega)]
    exact List.getElem_mem _
  obtain ⟨known, hget, -⟩ := hlists _ hmem
  rw [SlotValues.contains, OrderedMap.contains_eq_isSome, hget]
  rfl

/-- Every template of a tree is derived from the one of the root, by the values of the slots. -/
theorem derives_of_reaches (hslots : ∀ i, a.Reaches root i → (a.template i).Over SlotValues.Named)
    (hv : a.slotValues? root = .ok v) (hi : a.Reaches root i) :
    Derives v.sets (a.template root).tokens (a.template i).tokens := by
  have hover : v.Over SlotValues.Named := over_slotValues? hv hslots
  suffices a.Reaches root i ∧ Derives v.sets (a.template root).tokens (a.template i).tokens from
    this.2
  refine hi.induct (P := fun i => a.Reaches root i ∧
    Derives v.sets (a.template root).tokens (a.template i).tokens) ⟨.refl _ _, .refl _ _⟩
    fun i ⟨hi, hderives⟩ c hc => ?_
  have hc' : a.Reaches root c := hi.trans (reaches_of_mem_children hc)
  refine ⟨hc', hderives.trans ?_⟩
  obtain ⟨filling, hfilling, hlists⟩ := exists_filling_of_slotValues? hv hi hc
  refine Template.derives_of_filling hfilling fun p hp => derives_of_mem ?_
  obtain ⟨known, hget, hcontains⟩ := hlists p hp
  have hsets : v.getD p.1 = known := by
    rw [SlotValues.getD, SlotValues.get?, hget]
    rfl
  refine SlotValues.mem_of_contains_of_named (hover.values p.1) ?_ (hsets ▸ hcontains)
  exact Template.over_of_mem_fillings hfilling (hslots c hc') (List.of_mem_zip (a := p.1) hp).2

/-- A grammar derives some templates and defines all its slots. -/
structure Covers (g : Grammar) (inputs : List Template) : Prop where
  derives : ∀ t ∈ inputs, Derives g.productions [.slot g.start] t.tokens
  defined : g.undefinedSlots = []

/-- **A grammar read off a tree** derives the templates of the leaves and defines all its slots. -/
theorem covers_readOff (h : Carries Slot.Ready inputs a root)
    (hinputs : ∀ t ∈ inputs, t.hasSlots = false) {g : Grammar}
    (hg : (readOff a root).result = .ok g) : Covers g inputs := by
  obtain ⟨v, hv, rfl⟩ := map_eq_ok hg
  have hfresh := replacements_slotValues? hv
  have hcontains := fun {i : Nat} (hi : a.Reaches root i) {s : Slot} hs =>
    contains_of_mem_slots (s := s) h hinputs hv hi hs
  have horigin : v.contains origin = false := by
    by_contra hkey
    have hready := over_slotValues? hv h.slots
    exact (hready.keys origin (OrderedMap.contains_iff_mem_keys.1
      (Bool.not_eq_false _ ▸ hkey))).2 rfl
  have hdefined : v.Over fun s => v.contains s = true :=
    over_slotValues? hv fun i hi s hs => hcontains hi hs
  have hroot := fun s hs => hcontains (s := s) (.refl _ _) hs
  refine ⟨fun t ht => ?_, undefinedSlots_ofValues hfresh horigin hroot hdefined.values⟩
  obtain ⟨l, hl, rfl⟩ := (h.leaves t).2 ht
  apply derives_ofValues hfresh (.inr horigin) (h.free hinputs l hl)
  exact derives_of_reaches (fun i hi s hs => (h.slots i hi s hs).1) hv (mem_leaves.1 hl).1

end ReadOff

/-! ## Stages -/

section Stages

variable (hinputs : ∀ t ∈ inputs, t.hasSlots = false)

theorem carries_prune (h : Carries Slot.Unreserved inputs a root) :
    Carries Slot.Unreserved inputs (a.prune root).1 (a.prune root).2 := by
  obtain ⟨hext, himage⟩ := image_prune Slot.formal_unreserved h.lt h.slots
  exact h.of_image hext himage

theorem carries_flatten (h : Carries Slot.Ready inputs a root) {depth : Nat} (hdepth : depth ≠ 0) :
    Carries Slot.Ready inputs (a.flatten root depth).1 (a.flatten root depth).2 := by
  obtain ⟨hext, himage⟩ := image_flatten Slot.formal_ready h.lt h.slots hdepth
  exact h.of_image hext himage

include hinputs

theorem carries_splice (h : Carries Slot.Ready inputs a root) (sets : ValueSets) :
    Carries Slot.Ready inputs (a.splice sets root).1 (a.splice sets root).2 := by
  obtain ⟨hext, himage⟩ := image_splice Slot.formal_ready h.lt (h.free hinputs) h.slots sets
  exact h.of_image hext himage

/-- Naming and merging the slots of a tree. -/
theorem carries_simplify (h : Carries Slot.Unreserved inputs a root) {threshold : Float}
    {s : Simplified} (hs : simplify? threshold a root = .ok s) :
    s.arena.Extends a ∧ Carries Slot.Ready inputs s.arena s.root := by
  obtain ⟨hext, himage⟩ := image_nameSlots {} h.lt (h.free hinputs) h.slots
  have hnamed := h.of_image hext himage
  unfold simplify? at hs
  generalize a.nameSlots {} root = named at *
  obtain ⟨v, hv, rfl⟩ := map_eq_ok hs
  obtain ⟨v₀, hv₀, hmerge⟩ := bind_eq_ok hv
  have hover : v.Over Slot.Ready :=
    SlotValues.over_mergeBy (over_slotValues? hv₀ hnamed.slots) hmerge
  obtain ⟨hext', himage'⟩ := image_rename Slot.formal_ready hnamed.lt
    (hnamed.free hinputs) fun i hi s hs => by
      cases hget : v.replacements.get? s with
      | none => exact hnamed.slots i hi s hs
      | some target => exact hover.targets s target hget
  exact ⟨hext'.trans hext, hnamed.of_image hext' himage'⟩

theorem carries_recalculate {settings : Settings} {p p' : Progress}
    (h : Carries Slot.Ready inputs p.arena p.next) (hp : recalculate? settings p = .ok p') :
    Carries Slot.Ready inputs p'.arena p'.root ∧ Carries Slot.Ready inputs p'.arena p'.next := by
  have hfree : Carries Slot.Unreserved inputs p.arena p.next := h.mono fun s hs => hs.2
  obtain ⟨hext, himage⟩ := image_recalculate Slot.formal_unreserved (fun id hid => by cases hid)
    hfree.lt hfree.slots settings.minimalVariables p.supply
  have hmerged := hfree.of_image hext himage
  unfold recalculate? at hp
  generalize p.arena.recalculate settings.minimalVariables p.next p.supply = merged at *
  obtain ⟨s, hs, rfl⟩ := map_eq_ok hp
  obtain ⟨hext', hcarries⟩ := carries_simplify hinputs hmerged hs
  exact ⟨h.of_extends (hext'.trans hext), hcarries⟩

end Stages

end GrammarInduction.Induction
