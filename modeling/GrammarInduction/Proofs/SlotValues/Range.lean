import GrammarInduction.Proofs.SlotValues.Steps

/-!
# The slots that merging comes across

Merging slots makes no slots: every key, every slot in a value and every replacement is one that was
there before. So a property of all slots of slot values (`SlotValues.Over`) holds of what merging
makes of them, whatever the test of similarity (`over_mergeBy`).
-/

namespace GrammarInduction

variable {P : Slot → Prop}

namespace SlotValues

/-- All slots of all templates of a set have a property. -/
def SetOver (P : Slot → Prop) (templates : OrderedSet Template) : Prop :=
  ∀ t ∈ templates.toList, t.Over P

instance [DecidablePred P] (templates : OrderedSet Template) : Decidable (SetOver P templates) :=
  inferInstanceAs (Decidable (∀ t ∈ templates.toList, t.Over P))

/-- All slots of slot values have a property. -/
structure Over (P : Slot → Prop) (v : SlotValues) : Prop where
  keys : ∀ s ∈ v.slots, P s
  values : ∀ s, SetOver P (v.getD s)
  sources : ∀ s, v.isReplaced s = true → P s
  targets : ∀ s t, v.replacement? s = some t → P t

variable {v : SlotValues} {slot target s : Slot} {own templates : OrderedSet Template}
  {alike : OrderedSet Template → OrderedSet Template → Bool}

/-! ## Sets -/

theorem setOver_empty : SetOver P .empty := fun t ht => by simp at ht

theorem setOver_residual (h : P target) : SetOver P (residual target) := by
  intro t ht
  rcases OrderedSet.mem_of_mem_insert ht with ht | rfl
  · simp at ht
  · exact Template.over_ofSlot_iff.2 h

theorem SetOver.filter (h : SetOver P own) (p : Template → Bool) : SetOver P (own.filter p) :=
  fun t ht => h t (List.mem_filter.1 ht).1

theorem SetOver.insertAll (h : SetOver P own) {ts : List Template} (hts : ∀ t ∈ ts, t.Over P) :
    SetOver P (own.insertAll ts) := by
  intro t ht
  rcases OrderedSet.mem_of_mem_insertAll ht with ht | ht
  · exact h t ht
  · exact hts t ht

theorem setOver_ofList {ts : List Template} (hts : ∀ t ∈ ts, t.Over P) :
    SetOver P (OrderedSet.ofList ts) := fun t ht => hts t (OrderedSet.mem_of_mem_ofList ht)

/-! ## Reading and writing -/

theorem over_of_entries (hfresh : v.replacements = .empty)
    (h : ∀ e ∈ v.values.entries, P e.1 ∧ SetOver P e.2) : v.Over P where
  keys s hs := by
    obtain ⟨e, he, rfl⟩ := List.mem_map.1 hs
    exact (h e he).1
  values s := by
    cases hget : v.get? s with
    | none =>
      rw [getD, hget]
      exact setOver_empty
    | some templates =>
      rw [getD, hget]
      exact (h _ (OrderedMap.get?_eq_some_iff.1 hget)).2
  sources s hs := by simp [isReplaced, hfresh] at hs
  targets s t ht := by simp [replacement?, hfresh] at ht

theorem Over.insert (h : v.Over P) (hslot : P slot) (hset : SetOver P templates) :
    (v.insert slot templates).Over P where
  keys s hs := (mem_slots_insert hs).elim (h.keys s) fun hs => hs ▸ hslot
  values s := by
    rw [getD_insert]
    split
    · exact hset
    · exact h.values s
  sources := h.sources
  targets := h.targets

theorem Over.replace (h : v.Over P) (hslot : P slot) (htarget : P target) :
    (v.replace slot target).Over P where
  keys s hs := (mem_slots_replace hs).elim (h.keys s) fun hs => hs ▸ hslot
  values s := by
    rw [getD_replace]
    split
    · exact setOver_residual htarget
    · exact h.values s
  sources s hs := by
    rw [isReplaced_eq_isSome, replacement?_replace_eq] at hs
    split at hs
    next heq => exact heq ▸ hslot
    · exact h.sources s (by rwa [isReplaced_eq_isSome])
  targets s t hs := by
    rw [replacement?_replace_eq] at hs
    split at hs
    · exact Option.some.inj hs ▸ htarget
    · exact h.targets s t hs

theorem Over.rename {t : Template} (h : v.Over P) (ht : t.Over P) :
    (t.rename v.replacements).Over P := by
  intro s hs
  obtain ⟨k, hk, rfl⟩ := Template.mem_slots_rename.1 hs
  cases hget : v.replacements.get? k with
  | none => exact ht k hk
  | some target => exact h.targets k target hget

theorem Over.follow (h : v.Over P) (hown : SetOver P own) : SetOver P (v.follow own) := by
  unfold SlotValues.follow
  split
  · apply setOver_ofList
    intro t ht
    obtain ⟨t', ht', rfl⟩ := List.mem_map.1 ht
    exact h.rename (hown t' ht')
  · exact hown

/-! ## Values that are slots -/

theorem SetOver.of_only (h : SetOver P own)
    (ht : own.only?.bind Template.single? = some target) : P target := by
  refine Template.over_ofSlot_iff.1 (h (.ofSlot target) ?_)
  rw [only_single?_eq_some_iff.1 ht]
  exact List.mem_singleton_self _

/-! ## Chains -/

theorem Over.chainEnd (h : v.Over P) {limit : Nat} {last : Slot} (htarget : P target)
    (hlast : v.chainEnd? slot limit target = some last) : P last :=
  chainEnd?_induct (I := fun s => P s → P last) hlast (fun _ hs => hs)
    (fun s next hnext _ ih _ => ih (h.targets s next hnext)) htarget

theorem Over.compress (h : v.Over P) {limit : Nat} {r : SlotValues × Bool}
    (hr : v.compress limit slot = .ok r) : r.1.Over P := by
  rcases compress_eq_ok hr with ⟨-, rfl⟩ | ⟨target, last, htarget, hlast, rfl⟩
  · exact h
  · have hslot : P slot := h.sources slot (by simp [isReplaced_eq_isSome, htarget])
    exact h.replace hslot (h.chainEnd (h.targets _ _ htarget) hlast)

theorem Over.compressAll (h : v.Over P) {v' : SlotValues} (hv : v.compressAll = .ok v') :
    v'.Over P :=
  compressAll_induct (I := (·.Over P)) h (fun _ _ _ _ h hr => h.compress hr) hv

/-! ## One slot in one round -/

/-- All slots of a slot at work have a property. -/
structure Work.Over (P : Slot → Prop) (w : Work) : Prop where
  all : w.all.Over P
  own : SetOver P w.own

variable {w : Work} {later : Slot} {slots : List Slot} {state state' : SlotValues × List Slot}

theorem Work.Over.absorb (h : w.Over P) (hslot : P slot) (hlater : P later) :
    (SlotValues.absorb alike slot w later).Over P := by
  refine absorb_induct (I := (·.Over P)) h ?takeIn ?point
  case takeIn =>
    exact fun _ _ => ⟨h.all.replace hlater hslot, h.own.insertAll (h.all.values later)⟩
  case point => exact fun w hw _ _ => ⟨hw.all.replace hslot hlater, hw.own⟩

theorem Over.gathering (alike : OrderedSet Template → OrderedSet Template → Bool)
    (h : state.1.Over P) (hslot : P slot) (hslots : ∀ s ∈ slots, P s) :
    (gathering alike slots state slot).Over P :=
  gathering_induct (I := (·.Over P)) ⟨h, h.values slot⟩ fun _ hw later hlater =>
    hw.absorb hslot (hslots later (mem_of_mem_laterThan hlater))

theorem Work.Over.remaining (h : w.Over P) (later : List Slot) (slot : Slot) :
    SetOver P (remaining later slot w) := by
  refine SetOver.filter (h.all.follow fun t ht => ?_) _
  exact h.own t (mem_of_mem_dropProvided (mem_of_mem_dropCovered ht))

theorem Over.conclude (h : v.Over P) (hslot : P slot) (hown : SetOver P own) :
    (conclude v slot own).Over P := by
  unfold SlotValues.conclude
  split
  next target htarget => exact (h.replace hslot (hown.of_only htarget)).insert hslot hown
  · exact h.insert hslot hown

/-! ## Rounds -/

theorem Over.turn (h : state.1.Over P) (hslot : P slot) (hslots : ∀ s ∈ slots, P s)
    (ht : turn alike slots state slot = .ok state') : state'.1.Over P := by
  rcases turn_eq_ok ht with ⟨r, hr, -, rfl⟩ | ⟨-, w, rfl, rfl⟩
  · exact h.compress hr
  · have hw := h.gathering alike hslot hslots
    exact hw.all.conclude hslot (hw.remaining _ _)

theorem Over.of_meets {rest : List Slot} (h : v.Over P)
    (hmeets : Meets alike v.slots (v.slots.mergeSort Slot.le) v state rest) : state.1.Over P := by
  induction hmeets with
  | start => exact h
  | turn hmeets ht ih => exact ih.turn (h.keys _ hmeets.mem_slots) h.keys ht
  | round _ ih => exact ih

theorem Over.settled (h : v.Over P) {settled : SlotValues} (hsettled : Settled alike v settled) :
    settled.Over P :=
  h.of_meets (meets_settle hsettled)

/-! ## Dissolving slots used once -/

theorem Over.followIn {slot : Slot} (h : v.Over P) (hslot : P slot) : (v.followIn slot).Over P := by
  unfold SlotValues.followIn
  split
  · exact h.insert hslot ((h.follow (h.values slot)).filter _)
  · exact h

theorem Over.followAll (h : v.Over P) : v.followAll.Over P :=
  followAll_induct (I := (·.Over P)) h fun _ hw _ s hs =>
    hw.followIn (h.keys s (mem_unreplaced.1 hs).1)

theorem Over.inlineInto (h : v.Over P) {container : Slot} (hused : UsedOnce v slot container) :
    (v.inlineInto slot container).Over P := by
  have hslot := h.keys slot (mem_unreplaced.1 hused.unreplaced).1
  have hcontainer := h.keys container (mem_unreplaced.1 hused.container_unreplaced).1
  refine (h.insert hcontainer ?_).replace hslot hcontainer
  exact ((h.values container).filter _).insertAll
    fun t ht => h.values slot t (List.mem_filter.1 ht).1

theorem Over.inlineAll (h : v.Over P) (steps : Nat) : (inlineAll steps v).Over P :=
  inlineAll_induct (I := (·.Over P)) h (fun _ _ _ hused h => h.inlineInto hused) steps

/-! ## All together -/

/-- **A property of all slots holds of all slots after merging**, by any test of similarity. -/
theorem over_mergeBy (h : v.Over P) {m : SlotValues} (hm : v.mergeBy alike = .ok m) :
    m.Over P := by
  obtain ⟨settled, compressed, hsettled, hcompressed, hm⟩ := mergeBy_eq_ok_iff.1 hm
  have hcompressed := (h.settled hsettled).compressAll hcompressed
  exact (hcompressed.followAll.inlineAll _).compressAll hm

end SlotValues

end GrammarInduction
