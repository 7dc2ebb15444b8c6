import GrammarInduction.Proofs.Arena.Below
import GrammarInduction.Proofs.SlotValues.Range
import GrammarInduction.Proofs.Template.Filling

/-!
# The slot values of a tree

The slot values of a tree are gathered over all edges. They have the values of a filling for each
edge (`exists_filling_of_slotValues?`), and no slots but those of the templates
(`over_slotValues?`).
-/

namespace GrammarInduction

/-- Value sets list a value for a slot. -/
def Lists (sets : ValueSets) (s : Slot) (t : Template) : Prop :=
  ∃ known, sets.get? s = some known ∧ known.contains t = true

/-- All slots of value sets have a property. -/
def SetsOver (P : Slot → Prop) (sets : ValueSets) : Prop :=
  ∀ s known, sets.get? s = some known → P s ∧ SlotValues.SetOver P known

variable {P : Slot → Prop} {sets : ValueSets} {slot s : Slot} {t : Template} {ts : List Template}

/-! ## Joining values -/

/-- Value sets with values joined to those of one slot. -/
def joined (sets : ValueSets) (slot : Slot) (ts : List Template) : ValueSets :=
  sets.update slot fun known => (known.getD .empty).insertAll ts

theorem Lists.joined (h : Lists sets s t) (slot : Slot) (ts : List Template) :
    Lists (joined sets slot ts) s t := by
  obtain ⟨known, hget, hc⟩ := h
  unfold GrammarInduction.joined Lists
  rw [OrderedMap.get?_update]
  split
  next heq =>
    obtain rfl : slot = s := by simpa using heq
    refine ⟨_, rfl, ?_⟩
    rw [hget, Option.getD_some, OrderedSet.contains_insertAll, hc, Bool.true_or]
  · exact ⟨known, hget, hc⟩

theorem lists_joined (sets : ValueSets) (slot : Slot) (ht : t ∈ ts) :
    Lists (joined sets slot ts) slot t := by
  unfold joined Lists
  rw [OrderedMap.get?_update, if_pos BEq.rfl]
  refine ⟨_, rfl, ?_⟩
  rw [OrderedSet.contains_insertAll, Bool.or_eq_true, List.any_eq_true]
  exact .inr ⟨t, ht, BEq.rfl⟩

theorem SetsOver.joined (h : SetsOver P sets) (hslot : P slot) (hts : ∀ t ∈ ts, t.Over P) :
    SetsOver P (joined sets slot ts) := by
  intro s known hget
  unfold GrammarInduction.joined at hget
  rw [OrderedMap.get?_update] at hget
  split at hget
  next heq =>
    obtain rfl : slot = s := by simpa using heq
    obtain rfl := Option.some.inj hget
    refine ⟨hslot, SlotValues.SetOver.insertAll ?_ hts⟩
    cases hknown : sets.get? slot with
    | none => exact SlotValues.setOver_empty
    | some known => exact (h slot known hknown).2
  · exact h s known hget

/-- Value sets with several lists of values joined to them, one after the other. -/
def joinAll (sets : ValueSets) (es : List (Slot × List Template)) : ValueSets :=
  es.foldl (fun sets e => joined sets e.1 e.2) sets

variable {es : List (Slot × List Template)}

theorem Lists.joinAll (h : Lists sets s t) (es : List (Slot × List Template)) :
    Lists (joinAll sets es) s t := by
  induction es generalizing sets with
  | nil => exact h
  | cons e es ih => exact ih (h.joined e.1 e.2)

theorem lists_joinAll (sets : ValueSets) (hs : (s, ts) ∈ es) (ht : t ∈ ts) :
    Lists (joinAll sets es) s t := by
  induction es generalizing sets with
  | nil => cases hs
  | cons e es ih =>
    rcases List.mem_cons.1 hs with rfl | hs
    · exact (lists_joined sets s ht).joinAll es
    · exact ih _ hs

theorem SetsOver.joinAll (h : SetsOver P sets)
    (hes : ∀ e ∈ es, P e.1 ∧ ∀ t ∈ e.2, t.Over P) : SetsOver P (joinAll sets es) := by
  induction es generalizing sets with
  | nil => exact h
  | cons e es ih =>
    obtain ⟨hslot, hts⟩ := hes e List.mem_cons_self
    exact ih (h.joined hslot hts) fun e he => hes e (.tail _ he)

theorem setsOver_empty : SetsOver P .empty := fun s known h => by cases h

/-! ## One edge -/

namespace Template

variable {main other : Template}

/-- The value sets of an edge list the values of a filling. -/
theorem slotValues?_eq_ok (h : main.slotValues? other = .ok sets) :
    ∃ filling ∈ main.fillings other,
      sets = joinAll .empty ((main.slots.zip filling).map fun p => (p.1, [p.2])) := by
  obtain ⟨filling, hfilling, rfl⟩ := map_eq_ok h
  refine ⟨filling, mem_fillings_of_bestFilling? hfilling, ?_⟩
  rw [joinAll, List.foldl_map]
  rfl

theorem over_slotValues? (h : main.slotValues? other = .ok sets) (hmain : main.Over P)
    (hother : other.Over P) : SetsOver P sets := by
  obtain ⟨filling, hfilling, rfl⟩ := slotValues?_eq_ok h
  apply setsOver_empty.joinAll
  intro e he
  obtain ⟨p, hp, rfl⟩ := List.mem_map.1 he
  obtain ⟨hslot, hvalue⟩ := List.of_mem_zip (a := p.1) (b := p.2) hp
  refine ⟨hmain _ hslot, fun t ht => ?_⟩
  rw [List.mem_singleton.1 ht]
  exact over_of_mem_fillings hfilling hother hvalue

end Template

/-! ## All edges -/

namespace Arena

variable {a : Arena} {root i c : Nat} {v v' : SlotValues}

theorem addAll_eq (v : SlotValues) (sets : ValueSets) : v.addAll sets =
    ⟨joinAll v.values (sets.entries.map fun e => (e.1, e.2.toList)), v.replacements⟩ := by
  unfold SlotValues.addAll joinAll
  rw [List.foldl_map]
  generalize sets.entries = es
  induction es generalizing v with
  | nil => rfl
  | cons e es ih => exact ih _

/-- Slot values with the values of an edge list those, and all that was listed before. -/
theorem lists_addEdge {e : Nat × Nat} (h : a.addEdge v e = .ok v') :
    (∃ filling ∈ (a.template e.1).fillings (a.template e.2),
      ∀ p ∈ (a.template e.1).slots.zip filling, Lists v'.values p.1 p.2) ∧
      ∀ s t, Lists v.values s t → Lists v'.values s t := by
  obtain ⟨sets, hsets, rfl⟩ := map_eq_ok h
  obtain ⟨filling, hfilling, heq⟩ := Template.slotValues?_eq_ok hsets
  rw [addAll_eq]
  refine ⟨⟨filling, hfilling, fun p hp => ?_⟩, fun s t hst => hst.joinAll _⟩
  obtain ⟨known, hget, hc⟩ : Lists sets p.1 p.2 := by
    rw [heq]
    exact lists_joinAll _ (List.mem_map_of_mem hp) (List.mem_singleton_self _)
  obtain ⟨t, ht, heq⟩ := OrderedSet.contains_iff.1 hc
  obtain ⟨known', hget', hc'⟩ := lists_joinAll v.values
    (List.mem_map_of_mem (f := fun e => (e.1, e.2.toList)) (OrderedMap.get?_eq_some_iff.1 hget)) ht
  exact ⟨known', hget', (OrderedSet.contains_congr heq).symm.trans hc'⟩

/-- **The slot values of a tree** list, for each edge, the values of a filling. -/
theorem exists_filling_of_slotValues? (h : a.slotValues? root = .ok v) (hi : a.Reaches root i)
    (hc : c ∈ a.children i) : ∃ filling ∈ (a.template i).fillings (a.template c),
      ∀ p ∈ (a.template i).slots.zip filling, Lists v.values p.1 p.2 :=
  foldlM_establish (R := fun e v => ∃ filling ∈ (a.template e.1).fillings (a.template e.2),
      ∀ p ∈ (a.template e.1).slots.zip filling, Lists v.values p.1 p.2)
    (fun e v v' h => by
      obtain ⟨hfilling, hkeep⟩ := lists_addEdge h
      refine ⟨hfilling, fun e ⟨filling, hmem, hlists⟩ => ⟨filling, hmem, fun p hp => ?_⟩⟩
      exact hkeep _ _ (hlists p hp)) h (i, c) (mem_arena_edges.2 ⟨hi, hc⟩)

theorem replacements_slotValues? (h : a.slotValues? root = .ok v) : v.replacements = .empty := by
  refine foldlM_induct (I := fun v => v.replacements = .empty) rfl (fun e _ v v' hv h => ?_) h
  obtain ⟨sets, -, rfl⟩ := map_eq_ok h
  rw [addAll_eq]
  exact hv

theorem over_slotValues? (h : a.slotValues? root = .ok v)
    (hslots : ∀ i, a.Reaches root i → (a.template i).Over P) : v.Over P := by
  have hsets : SetsOver P v.values := by
    refine foldlM_induct (I := fun v => SetsOver P v.values) setsOver_empty
      (fun e he v v' hv h => ?_) h
    obtain ⟨hi, hc⟩ := mem_arena_edges.1 he
    obtain ⟨sets, hsets, rfl⟩ := map_eq_ok h
    have hedge := Template.over_slotValues? hsets (hslots _ hi)
      (hslots _ (hi.trans (reaches_of_mem_children hc)))
    rw [addAll_eq]
    apply hv.joinAll
    intro e he
    obtain ⟨entry, hentry, rfl⟩ := List.mem_map.1 he
    exact hedge _ _ (OrderedMap.get?_eq_some_iff.2 hentry)
  exact SlotValues.over_of_entries (replacements_slotValues? h)
    fun e he => hsets _ _ (OrderedMap.get?_eq_some_iff.2 he)

end Arena

end GrammarInduction
