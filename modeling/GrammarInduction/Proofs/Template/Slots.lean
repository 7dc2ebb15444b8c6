import GrammarInduction.Template.Filling
import GrammarInduction.Template.Merge

/-!
# The slots of templates

A slot of a template is a token of it (`mem_slots_iff`), and a template is over a property of slots
if all its slots have the property (`Over`).

* `Over.congr`: equal templates are over the same properties, if these do not tell anonymous slots
  apart (`Slot.Formal`).
* `mem_slots_rename`: renaming brings in new names of slots and nothing else; `eq_of_rename_eq` says when
  it keeps templates apart.
* `over_mergeAll`: merging brings in anonymous slots and nothing else.
* `eq_of_beq_of_named`: for templates of named slots, to be equal is to be the same.
-/

namespace GrammarInduction

/-- A property of slots that does not tell anonymous slots apart. -/
def Slot.Formal (P : Slot → Prop) : Prop := ∀ s t : Slot, s.erase = t.erase → P s → P t

theorem Slot.formal_isNamed : Slot.Formal (·.isNamed = true) := by
  intro s t h hs
  cases s <;> cases t <;> simp_all [Slot.erase, Slot.isNamed]

namespace Template

variable {P : Slot → Prop} {t u : Template} {s : Slot} {names : OrderedMap Slot Slot}

/-- All slots of a template have a property. -/
def Over (P : Slot → Prop) (t : Template) : Prop := ∀ s ∈ t.slots, P s

instance [DecidablePred P] (t : Template) : Decidable (t.Over P) :=
  inferInstanceAs (Decidable (∀ s ∈ t.slots, P s))

theorem mem_slots_iff : s ∈ t.slots ↔ .slot s ∈ t.tokens := by
  rw [slots, List.mem_filterMap]
  constructor
  · rintro ⟨k, hk, hks⟩
    cases k with
    | literal text => cases hks
    | slot s' =>
      obtain rfl : s' = s := Option.some.inj hks
      exact hk
  · intro h
    exact ⟨.slot s, h, rfl⟩

theorem slots_ofSlot (s : Slot) : (Template.ofSlot s).slots = [s] := rfl

theorem over_ofSlot_iff : (Template.ofSlot s).Over P ↔ P s := by
  simp [Over, slots_ofSlot]

theorem Over.congr (h : t.Over P) (hP : Slot.Formal P) (htu : (t == u) = true) : u.Over P := by
  have hform (t : Template) : t.slots.map Slot.erase = t.form.filterMap Token.slot? := by
    rw [slots, form, List.filterMap_map, List.map_filterMap]
    congr 1
    funext k
    cases k <;> rfl
  have hslots : t.slots.map Slot.erase = u.slots.map Slot.erase := by
    rw [hform, hform, beq_iff.1 htu]
  intro s hs
  have hs' : s.erase ∈ t.slots.map Slot.erase := hslots ▸ List.mem_map_of_mem hs
  obtain ⟨s', hs', heq⟩ := List.mem_map.1 hs'
  exact hP s' s heq (h s' hs')

/-! ## Templates without slots -/

theorem slots_eq_nil (h : t.hasSlots = false) : t.slots = [] := by
  apply List.eq_nil_iff_forall_not_mem.2
  intro s hs
  have := List.any_eq_false.1 h _ (mem_slots_iff.1 hs)
  simp [Token.isSlot] at this

theorem over_of_not_hasSlots (h : t.hasSlots = false) : t.Over P := by
  intro s hs
  rw [slots_eq_nil h] at hs
  cases hs

/-! ## Renaming -/

theorem slots_rename (names : OrderedMap Slot Slot) (t : Template) :
    (t.rename names).slots = t.slots.map fun s => (names.get? s).getD s := by
  obtain ⟨tokens⟩ := t
  dsimp only [slots, rename]
  rw [List.filterMap_map, List.map_filterMap]
  congr 1
  funext k
  cases k <;> rfl

theorem mem_slots_rename :
    s ∈ (t.rename names).slots ↔ ∃ k ∈ t.slots, (names.get? k).getD k = s := by
  rw [slots_rename, List.mem_map]

/-- Where no slot has a new name, renaming changes nothing. -/
theorem rename_eq_self (h : ∀ s ∈ t.slots, names.get? s = none) : t.rename names = t := by
  have hfixed : ∀ k ∈ t.tokens, renameToken names k = id k := by
    intro k hk
    cases k with
    | literal text => rfl
    | slot s => simp [renameToken, h s (mem_slots_iff.2 hk)]
  rw [rename, List.map_congr_left hfixed, List.map_id]

theorem rename_empty (t : Template) : t.rename .empty = t := rename_eq_self fun _ _ => rfl

theorem rename_of_not_hasSlots (h : t.hasSlots = false) (names : OrderedMap Slot Slot) :
    t.rename names = t := by
  apply rename_eq_self
  rw [slots_eq_nil h]
  nofun

/-- Templates that are the same after renaming are the same, if different slots of theirs get different
names. -/
theorem eq_of_rename_eq (h : t.rename names = u.rename names)
    (hnames : ∀ s ∈ t.slots, ∀ s' ∈ u.slots,
      (names.get? s).getD s = (names.get? s').getD s' → s = s') : t = u := by
  obtain ⟨ts⟩ := t
  obtain ⟨us⟩ := u
  have htokens : ts.map (renameToken names) = us.map (renameToken names) := congrArg tokens h
  have hone : ∀ k ∈ ts, ∀ l ∈ us, renameToken names k = renameToken names l → k = l := by
    intro k hk l hl heq
    cases k <;> cases l <;> simp only [renameToken, Token.literal.injEq, Token.slot.injEq,
      reduceCtorEq] at heq
    · rw [heq]
    · rw [hnames _ (mem_slots_iff.2 hk) _ (mem_slots_iff.2 hl) heq]
  have hlength : ts.length = us.length := by simpa using congrArg List.length htokens
  refine congrArg Template.mk (List.ext_getElem hlength fun i hi hi' => ?_)
  apply hone _ (List.getElem_mem hi) _ (List.getElem_mem hi')
  simpa [hi, hi'] using congrArg (fun l => l[i]?) htokens

/-! ## Named slots -/

theorem form_eq_of_named (h : t.Over (·.isNamed = true)) : t.form = t.tokens := by
  have hfixed : ∀ k ∈ t.tokens, k.erase = id k := by
    intro k hk
    cases k with
    | literal text => rfl
    | slot s =>
      have hs : s.isNamed = true := h s (mem_slots_iff.2 hk)
      cases s with
      | anonymous id => cases hs
      | named name => rfl
  rw [form, List.map_congr_left hfixed, List.map_id]

theorem eq_of_beq_of_named (h : (t == u) = true) (ht : t.Over (·.isNamed = true))
    (hu : u.Over (·.isNamed = true)) : t = u := by
  have hform := beq_iff.1 h
  rw [form_eq_of_named ht, form_eq_of_named hu] at hform
  obtain ⟨tokens⟩ := t
  exact congrArg Template.mk hform

/-- It is enough that one of the two has named slots only. -/
theorem eq_of_beq_of_named_right (h : (t == u) = true) (hu : u.Over (·.isNamed = true)) : t = u :=
  eq_of_beq_of_named h (hu.congr Slot.formal_isNamed (BEq.symm h)) hu

/-! ## Merging -/

theorem mem_mergedTokens {minimal : Bool} {ops : List EditOp} {tokens : List Token}
    {last : Option Token} {id : Nat} {k : Token}
    (h : k ∈ mergedTokens minimal ops tokens last id) :
    k ∈ tokens ∨ ∃ id', k = .slot (.anonymous id') := by
  induction ops generalizing tokens last id with
  | nil => simp [mergedTokens] at h
  | cons op ops ih =>
    have hafter {k : Token} (hk : k ∈ afterOp op tokens) : k ∈ tokens := by
      cases op <;> first | exact hk | exact List.mem_of_mem_tail hk
    have htoken : tokenOf op tokens id ∈ tokens ∨
        ∃ id', tokenOf op tokens id = .slot (.anonymous id') := by
      unfold tokenOf
      split
      · exact .inl List.mem_cons_self
      · exact .inr ⟨id, rfl⟩
    unfold mergedTokens at h
    dsimp only at h
    split at h
    · exact (ih h).imp_left hafter
    · rcases List.mem_cons.1 h with rfl | h
      · exact htoken
      · exact (ih h).imp_left hafter

/-- A merge has no slots but those of the first template and anonymous ones. -/
theorem over_of_mem_merges (hP : ∀ id, P (.anonymous id)) {policy : MergePolicy}
    {first second : Template} {supply : Nat} (h : first.Over P)
    (ht : t ∈ (merges policy first second supply).1) : t.Over P := by
  obtain ⟨⟨ops, k⟩, -, rfl⟩ := List.mem_map.1 (List.mem_filter.1 ht).1
  intro s hs
  rcases mem_mergedTokens (mem_slots_iff.1 hs) with hin | ⟨id, heq⟩
  · exact h s (mem_slots_iff.2 hin)
  · obtain rfl := Token.slot.inj heq
    exact hP id

theorem over_mergeFrom (hP : ∀ id, P (.anonymous id)) {policy : MergePolicy}
    {target : Option Template} (htarget : ∀ t, target = some t → t.Over P) {current : Template}
    (h : current.Over P) (rest : List Template) (supply : Nat) :
    (mergeFrom policy target current rest supply).1.Over P := by
  induction rest generalizing current supply with
  | nil => exact h
  | cons next rest ih =>
    have hcurrent : ((merges policy current next supply).1.headD current).Over P := by
      cases hm : (merges policy current next supply).1 with
      | nil => exact h
      | cons t ts => exact over_of_mem_merges hP h (hm ▸ List.mem_cons_self)
    unfold mergeFrom
    dsimp only
    split
    next t =>
      split
      · exact htarget t rfl
      · exact ih hcurrent _
    · exact ih hcurrent _

theorem over_mergeAll (hP : ∀ id, P (.anonymous id)) {templates : List Template}
    (h : ∀ t ∈ templates, t.Over P) {target : Template} (htarget : target.Over P)
    {minimalVariables : Bool} {supply : Nat} :
    ((mergeAll templates minimalVariables (some target) supply).1.getD target).Over P := by
  have hsome : ∀ t, some target = some t → t.Over P := fun t ht => Option.some.inj ht ▸ htarget
  unfold mergeAll
  split
  · exact htarget
  next first rest => exact over_mergeFrom hP hsome (h first List.mem_cons_self) rest supply

end Template

end GrammarInduction
