import GrammarInduction.Proofs.Grammar.Derivation
import GrammarInduction.Proofs.SlotValues.Range

/-!
# What merging keeps

At any time a slot that is replaced stands for the slot that replaces it, and any other slot for its
values (`rules`). A step keeps all that was derivable if it does so for these rules (`Keeps`).

* `Reworks.keeps`: a step that works on one slot has to see to the values that this slot gathers.
* `keeps_compress`, `agrees_followAll`, `keeps_inlineAll`: following replacements and dissolving
  slots loses nothing.
-/

namespace GrammarInduction

namespace SlotValues

/-- Slots that are named. -/
abbrev Named (s : Slot) : Prop := s.isNamed = true

variable {v v' : SlotValues} {slot target s : Slot} {own templates : OrderedSet Template}
  {alike : OrderedSet Template → OrderedSet Template → Bool} {t : Template} {x : List Token}
  {u w : List String}

/-! ## Rules -/

/-- The values of each slot, as productions. -/
def sets (v : SlotValues) (s : Slot) : List Template := (v.getD s).toList

theorem mem_slots_of_sets_ne_nil (h : v.sets s ≠ []) : s ∈ v.slots := by
  cases hget : v.get? s with
  | none => exact absurd (by simp [sets, getD, hget]) h
  | some templates => exact List.mem_map_of_mem (OrderedMap.get?_eq_some_iff.1 hget)

/-- What each slot stands for while slots are merged. -/
def rules (v : SlotValues) (s : Slot) : List Template :=
  match v.replacement? s with
  | some target => [.ofSlot target]
  | none => v.sets s

theorem rules_of_replacement (h : v.replacement? s = some target) :
    v.rules s = [.ofSlot target] := by
  simp [rules, h]

theorem rules_of_unreplaced (h : v.replacement? s = none) : v.rules s = v.sets s := by
  simp [rules, h]

theorem rules_replace (v : SlotValues) (slot target s : Slot) :
    (v.replace slot target).rules s = if slot = s then [.ofSlot target] else v.rules s := by
  simp only [rules, replacement?_replace_eq, sets, getD_replace]
  by_cases h : slot = s <;> simp [h]

theorem rules_replace_self (v : SlotValues) (slot target : Slot) :
    (v.replace slot target).rules slot = [.ofSlot target] := by
  rw [rules_replace, if_pos rfl]

theorem rules_replace_ne (h : s ≠ slot) : (v.replace slot target).rules s = v.rules s := by
  rw [rules_replace, if_neg h.symm]

theorem rules_insert_ne (h : s ≠ slot) : (v.insert slot templates).rules s = v.rules s := by
  simp only [rules, replacement?_insert, sets, getD_insert, if_neg h.symm]

theorem rules_insert_self (h : v.replacement? slot = none) :
    (v.insert slot templates).rules slot = templates.toList := by
  simp only [rules, replacement?_insert, h, sets, getD_insert, if_true]

theorem mem_of_contains_of_named (h : SetOver Named own) (ht : t.Over Named)
    (hmem : own.contains t = true) : t ∈ own.toList := by
  obtain ⟨t', ht', heq⟩ := OrderedSet.contains_iff.1 hmem
  exact Template.eq_of_beq_of_named heq (h t' ht') ht ▸ ht'

/-- A replaced slot yields what the slot that replaces it yields. -/
theorem yields_iff_of_replacement (h : v.replacement? s = some target) :
    Yields v.rules [.slot s] w ↔ Yields v.rules [.slot target] w := by
  rw [yields_slot_iff, rules_of_replacement h]
  simp only [List.mem_singleton, exists_eq_left]
  exact Iff.rfl

/-- A token yields what it yields when replacements are followed, and nothing else. -/
theorem yields_renameToken_iff {names : OrderedMap Slot Slot} {k : Token}
    (hnames : ∀ s, k = .slot s → ∀ target, names.get? s = some target →
      v.replacement? s = some target) :
    Yields v.rules [Template.renameToken names k] w ↔ Yields v.rules [k] w := by
  cases k with
  | literal text => exact Iff.rfl
  | slot s =>
    rw [Template.renameToken]
    cases hget : names.get? s with
    | none => exact Iff.rfl
    | some target => exact (yields_iff_of_replacement (hnames s rfl target hget)).symm

/-- A template yields what it yields when replacements are followed, and nothing else. -/
theorem yields_rename_iff {names : OrderedMap Slot Slot}
    (hnames : ∀ s ∈ t.slots, ∀ target, names.get? s = some target →
      v.replacement? s = some target) :
    Yields v.rules (t.rename names).tokens w ↔ Yields v.rules t.tokens w := by
  obtain ⟨tokens⟩ := t
  simp only [Template.mem_slots_iff] at hnames
  rw [Template.rename]
  dsimp only
  induction tokens generalizing w with
  | nil => exact Iff.rfl
  | cons k tokens ih =>
    have hk {u : List String} :
        Yields v.rules [Template.renameToken names k] u ↔ Yields v.rules [k] u :=
      yields_renameToken_iff fun s hs => hnames s (hs ▸ .head _)
    have hrest {u : List String} :
        Yields v.rules (tokens.map (Template.renameToken names)) u ↔ Yields v.rules tokens u :=
      ih fun s hs => hnames s (.tail _ hs)
    rw [List.map_cons, ← List.singleton_append, ← List.singleton_append (l := tokens)]
    simp only [yields_append_iff, hk, hrest]

/-! ## Steps that keep what is derivable -/

/-- What one slot values yield the other ones yield too. -/
def Keeps (v v' : SlotValues) : Prop := ∀ x w, Yields v.rules x w → Yields v'.rules x w

theorem Keeps.refl (v : SlotValues) : Keeps v v := fun _ _ h => h

theorem Keeps.trans {v'' : SlotValues} (h : Keeps v v') (h' : Keeps v' v'') : Keeps v v'' :=
  fun x w hy => h' x w (h x w hy)

/-- Both slot values yield the same. -/
def Agrees (v v' : SlotValues) : Prop := Keeps v v' ∧ Keeps v' v

theorem Agrees.refl (v : SlotValues) : Agrees v v := ⟨Keeps.refl v, Keeps.refl v⟩

theorem Agrees.trans {v'' : SlotValues} (h : Agrees v v') (h' : Agrees v' v'') : Agrees v v'' :=
  ⟨h.1.trans h'.1, h'.2.trans h.2⟩

theorem agrees_of_rules_eq (h : v'.rules = v.rules) : Agrees v v' :=
  ⟨fun _ _ hx => h ▸ hx, fun _ _ hx => h ▸ hx⟩

/-- A step that works on one slot: other slots keep their rules, or are replaced by the slot, which
takes their values in. -/
structure Reworks (v v' : SlotValues) (slot : Slot) (gathered : List Template) : Prop where
  own : ∀ t ∈ v.rules slot, t ∈ gathered
  other : ∀ s, s ≠ slot → v'.rules s = v.rules s ∨
    v'.rules s = [.ofSlot slot] ∧ ∀ t ∈ v.rules s, t ∈ gathered

theorem yields_of_mem_rules (ht : t ∈ v.rules s) (h : Yields v.rules t.tokens w) :
    Yields v.rules [.slot s] w :=
  yields_slot_iff.2 ⟨t, ht, h⟩

/-- **A step that works on one slot keeps what is derivable if the slot yields what each value that
it gathers yields.** -/
theorem Reworks.keeps {gathered : List Template} (h : Reworks v v' slot gathered)
    (hyields : ∀ t ∈ gathered, ∀ w, Yields v.rules t.tokens w → Yields v'.rules t.tokens w →
      Yields v'.rules [.slot slot] w) : Keeps v v' := by
  intro x w hx
  apply hx.mono
  intro s t ht u hu hu'
  by_cases hs : s = slot
  · subst hs
    exact hyields t (h.own t ht) u hu hu'
  · rcases h.other s hs with heq | ⟨heq, hin⟩
    · exact yields_of_mem_rules (heq ▸ ht) hu'
    · refine yields_slot_iff.2 ⟨.ofSlot slot, ?_, hyields t (hin t ht) u hu hu'⟩
      rw [heq]
      exact List.mem_singleton_self _

/-- Where the other slots stand for what they have stood for, what is derivable is kept if the slot
yields what its values yield. -/
theorem keeps_of_slot (hother : ∀ s, s ≠ slot → v'.rules s = v.rules s)
    (hslot : ∀ t ∈ v.rules slot, ∀ w, Yields v'.rules t.tokens w → Yields v'.rules [.slot slot] w) :
    Keeps v v' := by
  have hworks : Reworks v v' slot (v.rules slot) :=
    ⟨fun _ ht => ht, fun s hs => .inl (hother s hs)⟩
  exact hworks.keeps fun t ht w _ hw => hslot t ht w hw

theorem yields_replace (h : Yields (v.replace slot target).rules [.slot target] w) :
    Yields (v.replace slot target).rules [.slot slot] w :=
  yields_slot_iff.2 ⟨.ofSlot target, by rw [rules_replace_self]; exact .head _, h⟩

/-- Replacing a slot keeps what is derivable if the values of the slot are values of the other one. -/
theorem keeps_replace (hne : target ≠ slot) (h : ∀ t ∈ v.rules slot, t ∈ v.rules target) :
    Keeps v (v.replace slot target) := by
  refine keeps_of_slot (fun s hs => rules_replace_ne hs) fun t ht w hw => ?_
  refine yields_replace (yields_of_mem_rules ?_ hw)
  rw [rules_replace_ne hne]
  exact h t ht

/-- Replacing a slot adds nothing if the slot yields what the other one yields. -/
theorem keeps_of_replace
    (h : ∀ w, Yields v.rules [.slot target] w → Yields v.rules [.slot slot] w) :
    Keeps (v.replace slot target) v := by
  refine keeps_of_slot (fun s hs => (rules_replace_ne hs).symm) fun t ht w hw => ?_
  rw [rules_replace_self, List.mem_singleton] at ht
  subst ht
  exact h w hw

/-! ## Chains of replacements -/

theorem chainEnd?_self (limit : Nat) (h : v.replacement? slot = some slot) :
    v.chainEnd? slot limit slot = none := by
  unfold chainEnd?
  simp [h]

/-- Where only the replacement of the slot in question may differ, the end of a chain yields what its
beginning yields. -/
theorem yields_chainEnd (hother : ∀ s, s ≠ slot → v'.replacement? s = v.replacement? s) {limit : Nat}
    {last : Slot} (hne : target ≠ slot) (h : v.chainEnd? slot limit target = some last)
    (hw : Yields v'.rules [.slot target] w) : Yields v'.rules [.slot last] w := by
  refine chainEnd?_induct (I := fun s => s ≠ slot → Yields v'.rules [.slot s] w →
    Yields v'.rules [.slot last] w) h (fun _ _ hw => hw) (fun s next hnext hslot ih hs hw => ?_) hne hw
  exact ih hslot ((yields_iff_of_replacement ((hother s hs).trans hnext)).1 hw)

/-- The beginning of a chain yields what its end yields. -/
theorem yields_of_chainEnd {limit : Nat} {last : Slot}
    (h : v.chainEnd? slot limit target = some last) (hw : Yields v.rules [.slot last] w) :
    Yields v.rules [.slot target] w :=
  chainEnd?_induct (I := fun s => Yields v.rules [.slot s] w) h (fun _ => hw)
    fun _ _ hnext _ ih => (yields_iff_of_replacement hnext).2 ih

theorem keeps_compress {limit : Nat} {r : SlotValues × Bool}
    (hr : v.compress limit slot = .ok r) : Keeps v r.1 := by
  rcases compress_eq_ok hr with ⟨-, rfl⟩ | ⟨target, last, htarget, hlast, rfl⟩
  · exact Keeps.refl v
  have hother : ∀ s, s ≠ slot → (v.replace slot last).replacement? s = v.replacement? s :=
    fun s hs => by rw [replacement?_replace_eq, if_neg hs.symm]
  have hne : target ≠ slot := by
    rintro rfl
    rw [chainEnd?_self limit htarget] at hlast
    cases hlast
  refine keeps_of_slot (fun s hs => rules_replace_ne hs) fun t ht w hw => ?_
  rw [rules_of_replacement htarget, List.mem_singleton] at ht
  subst ht
  exact (yields_iff_of_replacement (replacement?_replace v slot last)).2
    (yields_chainEnd hother hne hlast hw)

theorem keeps_of_compress {limit : Nat} {r : SlotValues × Bool}
    (hr : v.compress limit slot = .ok r) : Keeps r.1 v := by
  rcases compress_eq_ok hr with ⟨-, rfl⟩ | ⟨target, last, htarget, hlast, rfl⟩
  · exact Keeps.refl v
  · exact keeps_of_replace fun w hw =>
      (yields_iff_of_replacement htarget).2 (yields_of_chainEnd hlast hw)

theorem keeps_compressAll (h : v.compressAll = .ok v') : Keeps v v' :=
  compressAll_induct (I := Keeps v) (Keeps.refl v)
    (fun _ _ _ _ hkeeps hr => hkeeps.trans (keeps_compress hr)) h

theorem keeps_of_compressAll (h : v.compressAll = .ok v') : Keeps v' v :=
  compressAll_induct (I := (Keeps · v)) (Keeps.refl v)
    (fun _ _ _ _ hkeeps hr => (keeps_of_compress hr).trans hkeeps) h

/-! ## Dissolving slots used once -/

theorem rename_of_not_mentionsReplaced (h : v.mentionsReplaced own = false) (ht : t ∈ own.toList) :
    t.rename v.replacements = t := by
  apply Template.rename_eq_self
  intro s hs
  have hfree : t.slots.any v.isReplaced = false := by simpa using List.any_eq_false.1 h t ht
  exact isReplaced_eq_false_iff.1 (by simpa using List.any_eq_false.1 hfree s hs)

theorem mem_of_mem_follow (h : t ∈ (v.follow own).toList) :
    ∃ t' ∈ own.toList, t = t'.rename v.replacements := by
  unfold follow at h
  split at h
  · obtain ⟨t', ht', rfl⟩ := List.mem_map.1 (OrderedSet.mem_of_mem_ofList h)
    exact ⟨t', ht', rfl⟩
  next hm =>
    exact ⟨t, h, (rename_of_not_mentionsReplaced (by simpa using hm) h).symm⟩

theorem rename_mem_follow (hv : v.Over Named) (h : SetOver Named own) (ht : t ∈ own.toList) :
    t.rename v.replacements ∈ (v.follow own).toList := by
  by_cases hm : v.mentionsReplaced own = true
  · refine mem_of_contains_of_named (hv.follow h) (hv.rename (h t ht)) ?_
    rw [follow, if_pos hm, OrderedSet.contains_ofList, List.any_eq_true]
    exact ⟨_, List.mem_map_of_mem ht, BEq.rfl⟩
  · rw [follow, if_neg hm, rename_of_not_mentionsReplaced (by simpa using hm) ht]
    exact ht

theorem mem_dropSelf : t ∈ (dropSelf slot own).toList ↔ t ∈ own.toList ∧ t ≠ .ofSlot slot := by
  have hsingle : t.single? = some slot ↔ t = .ofSlot slot :=
    ⟨Template.eq_ofSlot_of_single?, fun h => h ▸ rfl⟩
  simp [dropSelf, hsingle]

theorem keeps_follow (hv : v.Over Named) (hslot : v.replacement? slot = none) :
    Keeps v (v.insert slot (dropSelf slot (v.follow (v.getD slot)))) := by
  refine keeps_of_slot (fun s hs => rules_insert_ne hs) fun t ht w hw => ?_
  rw [rules_of_unreplaced hslot] at ht
  have hnames (s : Slot) (_ : s ∈ t.slots) (target : Slot)
      (htarget : v.replacements.get? s = some target) :
      (v.insert slot (dropSelf slot (v.follow (v.getD slot)))).replacement? s = some target :=
    htarget
  have hw := (yields_rename_iff hnames).2 hw
  by_cases heq : t.rename v.replacements = .ofSlot slot
  · rwa [heq] at hw
  · refine yields_of_mem_rules ?_ hw
    rw [rules_insert_self hslot]
    exact mem_dropSelf.2 ⟨rename_mem_follow hv (hv.values slot) ht, heq⟩

theorem keeps_of_follow (hslot : v.replacement? slot = none) :
    Keeps (v.insert slot (dropSelf slot (v.follow (v.getD slot)))) v := by
  refine keeps_of_slot (fun s hs => (rules_insert_ne hs).symm) fun t ht w hw => ?_
  rw [rules_insert_self hslot, mem_dropSelf] at ht
  obtain ⟨t', ht', rfl⟩ := mem_of_mem_follow ht.1
  exact yields_of_mem_rules (rules_of_unreplaced hslot ▸ ht')
    ((yields_rename_iff fun _ _ _ h => h).1 hw)

theorem agrees_followIn (h : v.Over Named) (hslot : v.replacement? slot = none) :
    Agrees v (v.followIn slot) := by
  unfold followIn
  split
  · exact ⟨keeps_follow h hslot, keeps_of_follow hslot⟩
  · exact Agrees.refl v

theorem agrees_followAll (h : v.Over Named) : Agrees v v.followAll := by
  refine (followAll_induct (I := fun w => w.Over Named ∧ Agrees v w) ⟨h, Agrees.refl v⟩ ?_).2
  rintro w ⟨hw, hagrees⟩ hsame slot hslot
  obtain ⟨hkey, hfree⟩ := mem_unreplaced.1 hslot
  have hfree : w.replacement? slot = none := by
    rw [replacement?, hsame]
    exact isReplaced_eq_false_iff.1 hfree
  exact ⟨hw.followIn (h.keys slot hkey), hagrees.trans (agrees_followIn hw hfree)⟩

theorem rules_inlineInto_slot (v : SlotValues) (slot container : Slot) :
    (v.inlineInto slot container).rules slot = [.ofSlot container] := by
  rw [inlineInto, rules_replace_self]

theorem rules_inlineInto_of_ne {container : Slot} (hslot : s ≠ slot) (hcontainer : s ≠ container) :
    (v.inlineInto slot container).rules s = v.rules s := by
  rw [inlineInto, rules_replace_ne hslot, rules_insert_ne hcontainer]

theorem mem_rules_inlineInto {container : Slot} (h : v.Over Named)
    (hused : UsedOnce v slot container)
    (ht : t ∈ v.sets container ∧ t ≠ .ofSlot slot ∨ t ∈ v.sets slot ∧ t ≠ .ofSlot container) :
    t ∈ (v.inlineInto slot container).rules container := by
  have hslot : Named slot := h.keys slot (mem_unreplaced.1 hused.unreplaced).1
  have hcontainer : Named container :=
    h.keys container (mem_unreplaced.1 hused.container_unreplaced).1
  have hne {s : Slot} (hs : Named s) {t : Template} (ht : t.Over Named) (hts : t ≠ .ofSlot s) :
      (!(t == .ofSlot s)) = true := by
    rw [Bool.not_eq_true', Bool.eq_false_iff]
    exact fun heq => hts (Template.eq_of_beq_of_named heq ht (Template.over_ofSlot_iff.2 hs))
  rw [inlineInto, rules_replace_ne hused.ne,
    rules_insert_self (isReplaced_eq_false_iff.1 (mem_unreplaced.1 hused.container_unreplaced).2)]
  have hrest : SetOver Named ((v.getD container).filter fun t => !(t == .ofSlot slot)) :=
    (h.values container).filter _
  have hinlined : ∀ t ∈ (v.getD slot).toList.filter (fun t => !(t == .ofSlot container)),
      t.Over Named := fun t ht => h.values slot t (List.mem_filter.1 ht).1
  rcases ht with ⟨ht, htne⟩ | ⟨ht, htne⟩
  · apply OrderedSet.mem_insertAll_of_mem
    exact List.mem_filter.2 ⟨ht, hne hslot (h.values container t ht) htne⟩
  · have hmem : t ∈ (v.getD slot).toList.filter fun t => !(t == .ofSlot container) :=
      List.mem_filter.2 ⟨ht, hne hcontainer (h.values slot t ht) htne⟩
    apply mem_of_contains_of_named (hrest.insertAll hinlined) (h.values slot t ht)
    rw [OrderedSet.contains_insertAll, Bool.or_eq_true, List.any_eq_true]
    exact .inr ⟨t, hmem, BEq.rfl⟩

theorem keeps_inlineInto {container : Slot} (h : v.Over Named)
    (hused : UsedOnce v slot container) : Keeps v (v.inlineInto slot container) := by
  have hslot := isReplaced_eq_false_iff.1 (mem_unreplaced.1 hused.unreplaced).2
  have hcontainer := isReplaced_eq_false_iff.1 (mem_unreplaced.1 hused.container_unreplaced).2
  intro x w hx
  apply hx.mono
  intro s t ht u _ hu
  by_cases hs : s = slot
  · subst hs
    rw [rules_of_unreplaced hslot] at ht
    refine yields_replace ?_
    by_cases heq : t = .ofSlot container
    · subst heq
      exact hu
    · exact yields_of_mem_rules (mem_rules_inlineInto h hused (.inr ⟨ht, heq⟩)) hu
  by_cases hs' : s = container
  · subst hs'
    rw [rules_of_unreplaced hcontainer] at ht
    by_cases heq : t = .ofSlot slot
    · subst heq
      obtain ⟨t, ht, hu⟩ := yields_slot_iff.1 hu
      rw [rules_inlineInto_slot, List.mem_singleton] at ht
      subst ht
      exact hu
    · exact yields_of_mem_rules (mem_rules_inlineInto h hused (.inl ⟨ht, heq⟩)) hu
  · exact yields_of_mem_rules (by rwa [rules_inlineInto_of_ne hs hs']) hu

theorem keeps_inlineAll (h : v.Over Named) (steps : Nat) : Keeps v (inlineAll steps v) := by
  refine (inlineAll_induct (I := fun v' => Keeps v v' ∧ v'.Over Named) ⟨Keeps.refl v, h⟩ ?_ steps).1
  exact fun _ _ _ hused ⟨hkeeps, hover⟩ =>
    ⟨hkeeps.trans (keeps_inlineInto hover hused), hover.inlineInto hused⟩

end SlotValues

end GrammarInduction
