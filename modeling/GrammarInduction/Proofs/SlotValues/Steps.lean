import GrammarInduction.Proofs.SlotValues.Rounds
import GrammarInduction.Proofs.Template.Slots

/-!
# What each step of merging does

What a step of merging does is said here once, so that what it keeps can be told without looking into
it again.

* `chainEnd?_induct`: what a chain of replacements is known to lead to can be told from its end back.
* `compress_eq_ok`, `compressAll_induct`: compressing points a replaced slot at the end of its chain.
* `absorb_cases`, `absorb_induct`, `gathering_induct`: a slot at work takes a later one in, or is
  pointed at it.
* `toList_dropProvided`, `toList_dropCovered`: what a slot gives up is filtered out of its values.
* `turn_eq_ok`: a turn compresses the chain of a replaced slot, or lets a slot that is not replaced
  gather values (`gathering`), of which some remain (`remaining`) and are written back (`conclude`).
* `followAll_induct`, `usedOnce_of_usedOnce?`, `inlineAll_induct`: the slots that are not replaced
  follow the replacements, and a slot is dissolved in the only one that has it as a value.
-/

namespace GrammarInduction

namespace SlotValues

variable {v v' m : SlotValues} {slot target later s k : Slot} {slots : List Slot}
  {templates : OrderedSet Template} {t : Template} {w : Work}
  {state state' : SlotValues × List Slot} {alike : OrderedSet Template → OrderedSet Template → Bool}

/-! ## Reading and writing -/

/-- A slot that is not replaced. -/
abbrev Free (v : SlotValues) (s : Slot) : Prop := v.replacement? s = none

theorem getD_insert (v : SlotValues) (slot s : Slot) (templates : OrderedSet Template) :
    (v.insert slot templates).getD s = if slot = s then templates else v.getD s := by
  by_cases h : slot = s <;> simp [getD, get?, insert, OrderedMap.get?_insert, h]

theorem replacement?_insert (v : SlotValues) (slot s : Slot) (templates : OrderedSet Template) :
    (v.insert slot templates).replacement? s = v.replacement? s := rfl

theorem getD_replace (v : SlotValues) (slot target s : Slot) :
    (v.replace slot target).getD s = if slot = s then residual target else v.getD s := by
  by_cases h : slot = s <;> simp [getD, get?, replace, OrderedMap.get?_insert, h]

theorem replacement?_replace_eq (v : SlotValues) (slot target s : Slot) :
    (v.replace slot target).replacement? s =
      if slot = s then some target else v.replacement? s := by
  by_cases h : slot = s <;> simp [replacement?, replace, OrderedMap.get?_insert, h]

theorem isReplaced_eq_isSome (v : SlotValues) (s : Slot) :
    v.isReplaced s = (v.replacement? s).isSome := v.replacements.contains_eq_isSome s

theorem isReplaced_eq_false_iff : v.isReplaced s = false ↔ v.replacement? s = none := by
  rw [isReplaced_eq_isSome, Option.isSome_eq_false_iff, Option.isNone_iff_eq_none]

theorem free_of_free_replace (h : (v.replace slot target).Free s) : slot ≠ s ∧ v.Free s := by
  rw [Free, replacement?_replace_eq] at h
  split at h
  · cases h
  next hne => exact ⟨hne, h⟩

theorem not_free_of_replacement (h : v.replacement? s = some k) : ¬ v.Free s := by
  rw [Free, h]
  exact Option.some_ne_none k

theorem exists_of_not_free (h : ¬ v.Free s) : ∃ k, v.replacement? s = some k :=
  Option.ne_none_iff_exists'.1 h

theorem mem_slots_insert (h : s ∈ (v.insert slot templates).slots) : s ∈ v.slots ∨ s = slot := by
  simp only [slots, insert, OrderedMap.keys_insert] at h
  split at h
  · exact .inl h
  · exact (List.mem_append.1 h).imp_right List.mem_singleton.1

theorem mem_slots_replace (h : s ∈ (v.replace slot target).slots) : s ∈ v.slots ∨ s = slot :=
  mem_slots_insert h

/-- The only value of a set is a slot. -/
theorem only_single?_eq_some_iff :
    templates.only?.bind Template.single? = some target ↔
      templates.toList = [.ofSlot target] := by
  constructor
  · intro h
    obtain ⟨t, honly, ht⟩ := Option.bind_eq_some_iff.1 h
    rw [OrderedSet.only?_eq_some_iff.1 honly, Template.eq_ofSlot_of_single? ht]
  · intro h
    rw [OrderedSet.only?_eq_some_iff.2 h]
    rfl

theorem mem_slotMembers : s ∈ slotMembers templates ↔ .ofSlot s ∈ templates.toList := by
  simp only [slotMembers, List.mem_filterMap]
  constructor
  · rintro ⟨t, ht, hts⟩
    exact Template.eq_ofSlot_of_single? hts ▸ ht
  · exact fun h => ⟨_, h, rfl⟩

/-! ## Chains of replacements -/

/-- What holds of the end of a chain, and of a slot in it if it holds of the next one, holds of the
beginning. -/
theorem chainEnd?_induct {I : Slot → Prop} {limit : Nat} {last : Slot}
    (h : v.chainEnd? slot limit target = some last) (stop : v.Free last → I last)
    (link : ∀ s next, v.replacement? s = some next → next ≠ slot → I next → I s) : I target := by
  induction limit generalizing target with
  | zero =>
    unfold chainEnd? at h
    split at h
    next hfree =>
      obtain rfl := Option.some.inj h
      exact stop hfree
    · split at h <;> cases h
  | succ limit ih =>
    unfold chainEnd? at h
    split at h
    next hfree =>
      obtain rfl := Option.some.inj h
      exact stop hfree
    next next hnext =>
      split at h
      · cases h
      next hne => exact link target next hnext hne (ih h)

theorem free_chainEnd {limit : Nat} {last : Slot}
    (h : v.chainEnd? slot limit target = some last) : v.Free last :=
  chainEnd?_induct (I := fun _ => v.Free last) h id fun _ _ _ _ hlast => hlast

/-- Compressing does nothing to a slot that is not replaced, and points another one at the end of its
chain. -/
theorem compress_eq_ok {limit : Nat} {r : SlotValues × Bool} (hr : v.compress limit slot = .ok r) :
    v.Free slot ∧ r = (v, false) ∨
      ∃ target last, v.replacement? slot = some target ∧
        v.chainEnd? slot limit target = some last ∧
        r = (v.replace slot last, v.isReplaced target) := by
  unfold compress at hr
  split at hr
  next hfree => exact .inl ⟨hfree, (Except.ok.inj hr).symm⟩
  next target htarget =>
    split at hr
    · cases hr
    next last hlast => exact .inr ⟨target, last, htarget, hlast, (Except.ok.inj hr).symm⟩

/-- What holds at the start and is kept whenever a chain is compressed holds after all chains are. -/
theorem compressAll_induct {I : SlotValues → Prop} (hv : I v)
    (step : ∀ limit slot w r, I w → w.compress limit slot = .ok r → I r.1)
    (h : v.compressAll = .ok v') : I v' := by
  refine foldlM_induct hv (fun slot _ w w' hw hw' => ?_) h
  obtain ⟨r, hr, rfl⟩ := map_eq_ok hw'
  exact step _ slot w r hw hr

/-! ## Gathering -/

/-- What one step of gathering does: `later` may be taken in, and the slot at work may be pointed at
`later` if that is its only value then. -/
theorem absorb_cases (alike : OrderedSet Template → OrderedSet Template → Bool) (slot later : Slot)
    (w : Work) :
    ∃ mid : Work,
      (mid = w ∨ w.all.Free later ∧ alike w.own (w.all.getD later) = true ∧
        mid = ⟨w.all.replace later slot, w.own.insertAll (w.all.getD later).toList,
          later :: w.updated, true⟩) ∧
      (absorb alike slot w later = mid ∨ mid.all.Free slot ∧ mid.own.toList = [.ofSlot later] ∧
        absorb alike slot w later =
          ⟨mid.all.replace slot later, mid.own, later :: mid.updated, true⟩) := by
  refine ⟨if !w.all.isReplaced later && alike w.own (w.all.getD later) then
      ⟨w.all.replace later slot, w.own.insertAll (w.all.getD later).toList, later :: w.updated, true⟩
    else w, ?_, ?_⟩
  · split
    next h =>
      rw [Bool.and_eq_true, Bool.not_eq_true', isReplaced_eq_false_iff] at h
      exact .inr ⟨h.1, h.2, rfl⟩
    · exact .inl rfl
  · unfold absorb
    dsimp only
    generalize (if !w.all.isReplaced later && alike w.own (w.all.getD later) then _ else w) = mid
    split
    next h =>
      rw [Bool.and_eq_true, Bool.not_eq_true', isReplaced_eq_false_iff, beq_iff_eq,
        only_single?_eq_some_iff] at h
      exact .inr ⟨h.1, h.2, rfl⟩
    · exact .inl rfl

/-- What holds of a slot at work is kept by a step of gathering if taking a slot in keeps it and
pointing the slot at its only value does. -/
theorem absorb_induct {I : Work → Prop} (hw : I w)
    (takeIn : w.all.Free later → alike w.own (w.all.getD later) = true →
      I ⟨w.all.replace later slot, w.own.insertAll (w.all.getD later).toList, later :: w.updated,
        true⟩)
    (point : ∀ w : Work, I w → w.all.Free slot → w.own.toList = [.ofSlot later] →
      I ⟨w.all.replace slot later, w.own, later :: w.updated, true⟩) :
    I (absorb alike slot w later) := by
  obtain ⟨mid, hmid, hlast⟩ := absorb_cases alike slot later w
  have hmid : I mid := by
    rcases hmid with rfl | ⟨hfree, halike, rfl⟩
    · exact hw
    · exact takeIn hfree halike
  rcases hlast with heq | ⟨hfree, honly, heq⟩
  · exact heq ▸ hmid
  · exact heq ▸ point mid hmid hfree honly

/-- A slot at work that has taken in the slots with similar values. -/
def gathering (alike : OrderedSet Template → OrderedSet Template → Bool) (slots : List Slot)
    (state : SlotValues × List Slot) (slot : Slot) : Work :=
  (laterThan slots slot).foldl (absorb alike slot) ⟨state.1, state.1.getD slot, state.2, false⟩

/-- A slot at work that has taken nothing in. -/
def untouched (state : SlotValues × List Slot) (slot : Slot) : Work :=
  ⟨state.1, state.1.getD slot, state.2, false⟩

/-- What holds before a slot has taken anything in, and is kept whenever it looks at a later slot,
holds of what it has gathered. -/
theorem gathering_induct {I : Work → Prop} (hstart : I (untouched state slot))
    (step : ∀ w, I w → ∀ later ∈ laterThan slots slot, I (absorb alike slot w later)) :
    I (gathering alike slots state slot) :=
  List.foldlRecOn _ (absorb alike slot) hstart step

theorem mem_of_mem_laterThan (h : s ∈ laterThan slots slot) : s ∈ slots :=
  (List.dropWhile_sublist _).mem (List.mem_of_mem_tail h)

theorem ne_of_mem_laterThan (h : slots.Nodup) (hs : s ∈ laterThan slots slot) : s ≠ slot := by
  rintro rfl
  induction slots with
  | nil => simp [laterThan] at hs
  | cons a slots ih =>
    rw [List.nodup_cons] at h
    rw [laterThan, List.dropWhile_cons] at hs
    split at hs
    · exact ih h.2 hs
    next ha =>
      obtain rfl : a = s := by simpa using ha
      exact h.1 hs

/-! ## Values given up -/

section GivenUp

variable {all : SlotValues} {own : OrderedSet Template} {later : List Slot}

theorem filter_eq_of_forall {p : Template → Bool} (h : ∀ t ∈ own.toList, p t = true) :
    own.filter p = own :=
  OrderedSet.eq_of_toList_eq (List.filter_eq_self.2 h)

/-- Filters for some slots, one after the other, are one filter. -/
theorem toList_foldl_filter {step : OrderedSet Template → Slot → OrderedSet Template}
    {p : Slot → Template → Bool} (h : ∀ own k, step own k = own.filter (p k)) (members : List Slot)
    (own : OrderedSet Template) :
    (members.foldl step own).toList = own.toList.filter fun t => members.all fun k => p k t := by
  induction members generalizing own with
  | nil => exact (List.filter_eq_self.2 fun _ _ => rfl).symm
  | cons k members ih =>
    rw [List.foldl_cons, ih, h, OrderedSet.toList_filter, List.filter_filter]
    simp only [List.all_cons, Bool.and_comm]

/-- The values left are those that no later slot among the values provides. -/
theorem toList_dropProvided (all : SlotValues) (later : List Slot) (own : OrderedSet Template) :
    (dropProvided all later own).toList = own.toList.filter fun t =>
      (slotMembers own).all fun k => !(later.contains k && (all.getD k).contains t) := by
  refine toList_foldl_filter (fun own k => ?_) _ own
  cases later.contains k with
  | false => exact (filter_eq_of_forall fun t _ => rfl).symm
  | true =>
    rw [getD]
    cases all.get? k with
    | none => exact (filter_eq_of_forall fun t _ => rfl).symm
    | some provided => rfl

theorem mem_dropProvided_iff : t ∈ (dropProvided all later own).toList ↔
    t ∈ own.toList ∧ ∀ k ∈ slotMembers own, k ∈ later → (all.getD k).contains t = false := by
  simp [toList_dropProvided, Decidable.imp_iff_not_or]

theorem mem_of_mem_dropProvided (h : t ∈ (dropProvided all later own).toList) : t ∈ own.toList :=
  (mem_dropProvided_iff.1 h).1

/-- The slots among the values that the other values do not provide for. -/
def uncovered (all : SlotValues) (own : OrderedSet Template) : List Slot :=
  keepUncovered all (own.toList.filter fun t => !t.hasSlots) [] (slotMembers own)

/-- The values left are those that are no slot provided for. -/
theorem toList_dropCovered (all : SlotValues) (own : OrderedSet Template) :
    (dropCovered all own).toList = own.toList.filter fun t =>
      ((slotMembers own).filter fun k => !(uncovered all own).contains k).all fun k =>
        !(t == .ofSlot k) :=
  toList_foldl_filter (fun _ _ => rfl) _ own

theorem mem_dropCovered_iff : t ∈ (dropCovered all own).toList ↔
    t ∈ own.toList ∧ ∀ k ∈ slotMembers own, k ∉ uncovered all own → (t == .ofSlot k) = false := by
  simp [toList_dropCovered, Decidable.or_iff_not_imp_left]

theorem mem_of_mem_dropCovered (h : t ∈ (dropCovered all own).toList) : t ∈ own.toList :=
  (mem_dropCovered_iff.1 h).1

end GivenUp

/-! ## The whole turn -/

/-- The values that a slot does not give up. -/
def remaining (later : List Slot) (slot : Slot) (w : Work) : OrderedSet Template :=
  dropSelf slot (w.all.follow (dropCovered w.all (dropProvided w.all later w.own)))

/-- A slot is given its values, and replaced by the slot that is its only value. -/
def conclude (all : SlotValues) (slot : Slot) (own : OrderedSet Template) : SlotValues :=
  match own.only?.bind Template.single? with
  | some target => (all.replace slot target).insert slot own
  | none => all.insert slot own

theorem getD_conclude (v : SlotValues) (slot s : Slot) (own : OrderedSet Template) :
    (conclude v slot own).getD s = if slot = s then own else v.getD s := by
  unfold conclude
  split
  · rw [getD_insert, getD_replace]
    split <;> rfl
  · exact getD_insert v slot s own

theorem replacement?_conclude_ne {own : OrderedSet Template} (hs : s ≠ slot) :
    (conclude v slot own).replacement? s = v.replacement? s := by
  unfold conclude
  split
  · rw [replacement?_insert, replacement?_replace_eq, if_neg hs.symm]
  · rfl

theorem reduce_all (slot : Slot) (later : List Slot) (w : Work) :
    (reduce alike slot later w).all =
      conclude (later.foldl (absorb alike slot) w).all slot
        (remaining later slot (later.foldl (absorb alike slot) w)) := by
  unfold reduce conclude remaining
  simp only [Work.narrow]
  split <;> simp only [*]

/-- Whether a slot at work has changed itself when it has had its turn. -/
def reduces (slot : Slot) (later : List Slot) (w : Work) : Bool :=
  let provided := dropProvided w.all later w.own
  let covered := dropCovered w.all provided
  let followed := w.all.follow covered
  w.changed || provided.size != w.own.size || covered.size != provided.size ||
    w.all.mentionsReplaced covered || (dropSelf slot followed).size != followed.size ||
    ((remaining later slot w).only?.bind Template.single?).isSome

theorem reduce_changed (slot : Slot) (later : List Slot) (w : Work) :
    (reduce alike slot later w).changed =
      reduces slot later (later.foldl (absorb alike slot) w) := by
  unfold reduce reduces remaining
  simp only [Work.narrow]
  split <;> simp [*]

theorem reduce_updated (slot : Slot) (later : List Slot) (w : Work) :
    (reduce alike slot later w).updated = (later.foldl (absorb alike slot) w).updated := by
  unfold reduce
  simp only [Work.narrow]
  split <;> rfl

/-- **What a turn does.** It compresses the chain of a replaced slot, or lets a slot that is not
replaced gather values and give up some. -/
theorem turn_eq_ok (ht : turn alike slots state slot = .ok state') :
    (∃ r, state.1.compress slots.length slot = .ok r ∧ ¬ state.1.Free slot ∧
      state' = (r.1, if r.2 then slot :: state.2 else state.2)) ∨
    state.1.Free slot ∧ ∃ w, w = gathering alike slots state slot ∧
      state' = (conclude w.all slot (remaining (laterThan slots slot) slot w),
        if reduces slot (laterThan slots slot) w then slot :: w.updated else w.updated) := by
  unfold turn at ht
  simp only at ht
  split at ht
  next hreplaced =>
    obtain ⟨r, hr, rfl⟩ := map_eq_ok ht
    refine .inl ⟨r, hr, ?_, rfl⟩
    rwa [Free, ← isReplaced_eq_false_iff, Bool.not_eq_false]
  next hfree =>
    obtain rfl := Except.ok.inj ht
    rw [Bool.not_eq_true, isReplaced_eq_false_iff] at hfree
    refine .inr ⟨hfree, _, rfl, Prod.ext (reduce_all slot _ _) ?_⟩
    dsimp only
    rw [reduce_changed, reduce_updated]
    rfl

/-! ## Following replacements and dissolving slots used once -/

theorem mem_unreplaced : s ∈ v.unreplaced ↔ s ∈ v.slots ∧ v.isReplaced s = false := by
  simp [unreplaced]

/-- A slot with its values as the replacements have them. -/
def followIn (v : SlotValues) (slot : Slot) : SlotValues :=
  if v.mentionsReplaced (v.getD slot) then v.insert slot (dropSelf slot (v.follow (v.getD slot)))
  else v

theorem followAll_eq (v : SlotValues) : v.followAll = v.unreplaced.foldl followIn v := rfl

theorem replacements_followIn (v : SlotValues) (slot : Slot) :
    (v.followIn slot).replacements = v.replacements := by
  unfold followIn
  split <;> rfl

theorem replacements_foldl_followIn (v : SlotValues) (members : List Slot) :
    (members.foldl followIn v).replacements = v.replacements :=
  List.foldlRecOn (motive := fun w => w.replacements = v.replacements) members followIn rfl
    fun w hw slot _ => (replacements_followIn w slot).trans hw

/-- What holds at the start and is kept by the turns of the slots that are not replaced, which leave
the replacements alone, holds when all replacements have been followed. -/
theorem followAll_induct {I : SlotValues → Prop} (hv : I v)
    (step : ∀ w, I w → w.replacements = v.replacements → ∀ slot ∈ v.unreplaced, I (w.followIn slot)) :
    I v.followAll :=
  (List.foldlRecOn (motive := fun w => I w ∧ w.replacements = v.replacements) v.unreplaced followIn
    ⟨hv, rfl⟩ fun w ⟨hw, hsame⟩ slot hslot =>
      ⟨step w hw hsame slot hslot, (replacements_followIn w slot).trans hsame⟩).1

/-- A map lists a slot among the users of another one. -/
def Lists (m : OrderedMap Slot (OrderedSet Slot)) (slot container : Slot) : Prop :=
  ∃ users, m.get? slot = some users ∧ container ∈ users.toList

theorem lists_update_iff {m : OrderedMap Slot (OrderedSet Slot)} {container c : Slot} :
    Lists (m.update slot fun known => (known.getD .empty).insert container) s c ↔
      Lists m s c ∨ s = slot ∧ c = container := by
  unfold Lists
  rw [OrderedMap.get?_update]
  by_cases hs : slot = s
  · subst hs
    cases hget : m.get? slot <;> simp [OrderedSet.mem_insert]
  · simp [hs, Ne.symm hs]

theorem lists_updates_iff {m : OrderedMap Slot (OrderedSet Slot)} {members : List Slot}
    {container c : Slot} :
    Lists (members.foldl
        (fun m slot => m.update slot fun known => (known.getD .empty).insert container) m) s c ↔
      Lists m s c ∨ s ∈ members ∧ c = container := by
  induction members generalizing m with
  | nil => simp
  | cons slot members ih =>
    rw [List.foldl_cons, ih, lists_update_iff, List.mem_cons, or_and_right, or_assoc]

/-- The entries of slots that are not replaced are their values. -/
theorem exists_unreplaced_entry_iff {c : Slot} :
    (∃ templates, (c, templates) ∈ v.values.entries.filter (fun e => !v.isReplaced e.1) ∧
      t ∈ templates.toList) ↔ c ∈ v.unreplaced ∧ t ∈ (v.getD c).toList := by
  rw [mem_unreplaced]
  constructor
  · rintro ⟨templates, hmem, ht⟩
    obtain ⟨hmem, hfree⟩ := List.mem_filter.1 hmem
    have hget : v.get? c = some templates := OrderedMap.get?_eq_some_iff.2 hmem
    refine ⟨⟨List.mem_map_of_mem hmem, by simpa using hfree⟩, ?_⟩
    rwa [getD, hget]
  · rintro ⟨⟨-, hfree⟩, ht⟩
    cases hget : v.get? c with
    | none =>
      rw [getD, hget] at ht
      cases ht
    | some templates =>
      rw [getD, hget] at ht
      have hmem := OrderedMap.get?_eq_some_iff.1 hget
      exact ⟨templates, List.mem_filter.2 ⟨hmem, by simp [hfree]⟩, ht⟩

/-- For each slot the containers are the slots not replaced that have it as a value. -/
theorem lists_containers_iff {c : Slot} :
    Lists v.containers s c ↔ c ∈ v.unreplaced ∧ .ofSlot s ∈ (v.getD c).toList := by
  have hinit : ¬ Lists .empty s c := by
    rintro ⟨_, h, -⟩
    cases h
  rw [← exists_unreplaced_entry_iff]
  refine Iff.trans ?_ (or_iff_right hinit)
  unfold containers
  generalize v.values.entries.filter (fun e => !v.isReplaced e.1) = es
  generalize (OrderedMap.empty : OrderedMap Slot (OrderedSet Slot)) = m
  clear hinit
  induction es generalizing m with
  | nil => simp
  | cons e es ih =>
    rw [List.foldl_cons, ih, lists_updates_iff, mem_slotMembers, or_assoc]
    refine or_congr_right ⟨?_, ?_⟩
    · rintro (⟨ht, rfl⟩ | ⟨templates, hmem, ht⟩)
      · exact ⟨e.2, List.mem_cons_self, ht⟩
      · exact ⟨templates, .tail _ hmem, ht⟩
    · rintro ⟨templates, hmem, ht⟩
      rcases List.mem_cons.1 hmem with rfl | hmem
      · exact .inl ⟨ht, rfl⟩
      · exact .inr ⟨templates, hmem, ht⟩

/-- What is known of a slot used once and the slot that has it as a value. -/
structure UsedOnce (v : SlotValues) (slot container : Slot) : Prop where
  ne : container ≠ slot
  unreplaced : slot ∈ v.unreplaced
  container_unreplaced : container ∈ v.unreplaced
  value : .ofSlot slot ∈ (v.getD container).toList
  only : ∀ c ∈ v.unreplaced, .ofSlot slot ∈ (v.getD c).toList → c = container

theorem usedOnce_of_usedOnce? {container : Slot} (h : v.usedOnce? = some (slot, container)) :
    UsedOnce v slot container := by
  obtain ⟨⟨s, users⟩, hmem, h⟩ := List.exists_of_findSome?_eq_some h
  dsimp only at h
  split at h
  next c hc =>
    split at h
    next hcond =>
      obtain ⟨rfl, rfl⟩ := Prod.mk.inj (Option.some.inj h)
      obtain ⟨hne, hfree, hkey⟩ := hcond
      have husers : users.toList = [c] := OrderedSet.only?_eq_some_iff.1 hc
      have hget : v.containers.get? s = some users := OrderedMap.get?_eq_some_iff.2 hmem
      have hlists (c' : Slot) : c' = c ↔ c' ∈ v.unreplaced ∧ .ofSlot s ∈ (v.getD c').toList := by
        rw [← lists_containers_iff, Lists, hget]
        simp [husers]
      obtain ⟨hunreplaced, hvalue⟩ := (hlists c).1 rfl
      exact ⟨hne, mem_unreplaced.2 ⟨OrderedMap.contains_iff_mem_keys.1 hkey, hfree⟩, hunreplaced,
        hvalue, fun c' hc' hvalue => (hlists c').2 ⟨hc', hvalue⟩⟩
    · cases h
  · cases h

/-- What holds at the start and is kept whenever a slot is dissolved holds at the end. -/
theorem inlineAll_induct {I : SlotValues → Prop} (hv : I v)
    (step : ∀ v slot container, UsedOnce v slot container → I v → I (v.inlineInto slot container))
    (steps : Nat) : I (inlineAll steps v) := by
  induction steps generalizing v with
  | zero => exact hv
  | succ steps ih =>
    unfold inlineAll
    split
    next slot container hused => exact ih (step _ _ _ (usedOnce_of_usedOnce? hused) hv)
    · exact hv

/-! ## All together -/

/-- The rounds come to an end within those that merging allows. -/
abbrev Settled (alike : OrderedSet Template → OrderedSet Template → Bool) (v settled : SlotValues) :
    Prop :=
  settle alike v.slots (v.slots.mergeSort Slot.le) ((v.slots.length + 1) * roundsPerSlot)
    ((v.slots.length + 1) * roundsPerSlot) v (v.slots.mergeSort Slot.le) = .ok settled

/-- Merging succeeds if the rounds come to an end and all chains can be compressed, before slots are
dissolved and after. -/
theorem mergeBy_eq_ok_iff : v.mergeBy alike = .ok m ↔
    ∃ settled compressed, Settled alike v settled ∧ settled.compressAll = .ok compressed ∧
      (inlineAll compressed.size compressed.followAll).compressAll = .ok m := by
  refine ⟨fun hm => ?_, ?_⟩
  · obtain ⟨settled, hsettled, hm⟩ := bind_eq_ok hm
    obtain ⟨compressed, hcompressed, hm⟩ := bind_eq_ok hm
    exact ⟨settled, compressed, hsettled, hcompressed, hm⟩
  · rintro ⟨settled, compressed, hsettled, hcompressed, hm⟩
    unfold mergeBy
    dsimp only
    rw [Settled] at hsettled
    rw [hsettled]
    change (settled.compressAll >>= _) = _
    rw [hcompressed]
    exact hm

end SlotValues

end GrammarInduction
