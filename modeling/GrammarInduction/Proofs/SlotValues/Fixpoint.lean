import GrammarInduction.Proofs.SlotValues.Plain

/-!
# When merging has come to a fixed point

Merging compares a slot again only if its set has changed since or if it has taken another slot in,
follows the last replacements when the rounds are over, and dissolves slots after that. So what it
leaves need not be a fixed point of it, even by the test of equality: there may be slots with equal
values in it that merging once more unites (`merge_moves_on`). It is a fixed point exactly if it is
irreducible (`merge_fixed_iff`).

A second run in which no slot comes to be replaced only takes values out of sets (`Shrinks`). If the
sets are the same at its end, each slot has had a turn in its first round that has changed nothing
(`exists_idle_turn`), and what such a turn has looked at is what makes slot values irreducible.
-/

namespace GrammarInduction

namespace SlotValues

variable {u v v' m m' : SlotValues} {slot later s k : Slot} {slots sorted dirty : List Slot}
  {own : OrderedSet Template} {t : Template} {w : Work} {state state' : SlotValues × List Slot}
  {alike : OrderedSet Template → OrderedSet Template → Bool} {allowed rounds : Nat}

/-! ## Sets that lose values -/

/-- The same slots are replaced, and the sets of the others have at most lost values. -/
structure Shrinks (v v' : SlotValues) : Prop where
  free : v'.Free = v.Free
  sets : ∀ s, v.Free s → (v'.sets s).Sublist (v.sets s)

namespace Shrinks

theorem refl (v : SlotValues) : Shrinks v v := ⟨rfl, fun _ _ => .refl _⟩

theorem trans (h : Shrinks u v) (h' : Shrinks v v') : Shrinks u v' :=
  ⟨h'.free.trans h.free, fun s hs => (h'.sets s (h.free ▸ hs)).trans (h.sets s hs)⟩

theorem closed (h : Shrinks v v') (hv : v.Closed) : v'.Closed := by
  intro s hs t ht
  rw [h.free] at hs ⊢
  exact hv s hs t ((h.sets s hs).subset ht)

/-- What has not lost anything in the end has not lost anything before. -/
theorem getD_eq (h : Shrinks u v) (h' : Shrinks v v') (hsame : ∀ s, u.Free s → v'.sets s = u.sets s)
    (hs : u.Free s) : v.getD s = u.getD s := by
  refine OrderedSet.eq_of_toList_eq ((h.sets s hs).antisymm ?_)
  have := h'.sets s (h.free ▸ hs)
  rwa [hsame s hs] at this

end Shrinks

theorem dropProvided_sublist {later : List Slot} :
    (dropProvided v later own).toList.Sublist own.toList := by
  rw [toList_dropProvided]
  exact List.filter_sublist

theorem dropCovered_sublist : (dropCovered v own).toList.Sublist own.toList := by
  rw [toList_dropCovered]
  exact List.filter_sublist

/-- Where nothing is to be followed a slot only gives up values. -/
theorem remaining_sublist {later : List Slot} (hown : SetOver w.all.Free w.own) :
    (remaining later slot w).toList.Sublist
        (dropCovered w.all (dropProvided w.all later w.own)).toList := by
  have hleft : SetOver w.all.Free (dropCovered w.all (dropProvided w.all later w.own)) :=
    fun t ht => hown t (dropProvided_sublist.subset (dropCovered_sublist.subset ht))
  rw [remaining, follow_eq_self hleft]
  exact List.filter_sublist

/-- A slot that gives up nothing has no value that is provided or covered. -/
theorem drops_eq_self_of_remaining {later : List Slot} (hown : SetOver w.all.Free w.own)
    (hleft : remaining later slot w = w.own) :
    dropProvided w.all later w.own = w.own ∧ dropCovered w.all w.own = w.own := by
  have hsub : (remaining later slot w).toList.Sublist _ := remaining_sublist hown
  rw [hleft] at hsub
  have hprovided : dropProvided w.all later w.own = w.own :=
    OrderedSet.eq_of_toList_eq (dropProvided_sublist.antisymm (hsub.trans dropCovered_sublist))
  rw [hprovided] at hsub
  exact ⟨hprovided, OrderedSet.eq_of_toList_eq (dropCovered_sublist.antisymm hsub)⟩

section Runs

variable (hnodup : slots.Nodup)

include hnodup

theorem shrinks_turn (hclosed : state.1.Closed) (ht : turn alike slots state slot = .ok state')
    (hquiet : ∀ s, state.1.Free s → state'.1.Free s) : Shrinks state.1 state'.1 := by
  cases quietTurn_of_turn hnodup ht hquiet with
  | point htarget hlast _ =>
    have hgone := not_free_of_replacement htarget
    refine ⟨funext fun s => propext (free_replace_iff hgone), fun s hs => ?_⟩
    have hne : slot ≠ s := fun heq => hgone (heq ▸ hs)
    rw [sets_replace, if_neg hne]
  | narrow hfree _ =>
    refine ⟨rfl, fun s hs => ?_⟩
    rw [sets_insert]
    split
    next heq =>
      subst heq
      exact ((remaining_sublist (hclosed slot hfree)).trans dropCovered_sublist).trans
        dropProvided_sublist
    · exact .refl _

theorem shrinks_run {updated : List Slot} (hclosed : v.Closed)
    (hrun : dirty.foldlM (turn alike slots) (v, updated) = .ok state')
    (hquiet : ∀ s, v.Free s → state'.1.Free s) : Shrinks v state'.1 := by
  refine quiet_induct (I := fun _ mid => Shrinks v mid.1) hnodup hrun rfl hquiet (.refl v) ?_
  intro slot rest mid mid' hmid ht hfree hfree'
  refine hmid.trans (shrinks_turn hnodup (hmid.closed hclosed) ht ?_)
  rw [hfree, hfree']
  exact fun _ hs => hs

theorem free_of_free_settle (h : settle alike slots sorted allowed rounds v dirty = .ok v')
    (hs : v'.Free s) : v.Free s := by
  induction rounds generalizing v dirty with
  | zero =>
    cases dirty with
    | nil => exact Except.ok.inj h ▸ hs
    | cons slot rest => cases h
  | succ rounds ih =>
    rw [settle_succ] at h
    obtain ⟨state, hrun, h⟩ := bind_eq_ok h
    exact free_of_free_run hnodup hrun (ih h)

theorem shrinks_settle (hclosed : v.Closed)
    (h : settle alike slots sorted allowed rounds v dirty = .ok v')
    (hquiet : ∀ s, v.Free s → v'.Free s) : Shrinks v v' := by
  induction rounds generalizing v dirty with
  | zero =>
    cases dirty with
    | nil => exact Except.ok.inj h ▸ .refl v
    | cons slot rest => cases h
  | succ rounds ih =>
    rw [settle_succ] at h
    obtain ⟨state, hrun, h⟩ := bind_eq_ok h
    have hfirst : Shrinks v state.1 := shrinks_run hnodup hclosed hrun
      fun s hs => free_of_free_settle hnodup h (hquiet s hs)
    exact hfirst.trans (ih (hfirst.closed hclosed) h fun s hs => hquiet s (hfirst.free ▸ hs))

section Rounds

variable (hsettled : settle alike slots sorted allowed rounds v sorted = .ok v')
  (hmeets : Meets alike slots sorted v state dirty)

include hsettled hmeets

/-- If no slot comes to be replaced, sets only lose values up to any state and from there on. -/
theorem shrinks_of_meets (hclosed : v.Closed) (hquiet : ∀ s, v.Free s → v'.Free s) :
    Shrinks v state.1 ∧ Shrinks state.1 v' := by
  have hbefore : Shrinks v state.1 := by
    induction hmeets with
    | start => exact .refl v
    | turn hmeets ht ih =>
      refine ih.trans (shrinks_turn hnodup (ih.closed hclosed) ht fun s hs => ?_)
      exact (hmeets.turn ht).free hnodup hsettled (hquiet s (ih.free ▸ hs))
    | round _ ih => exact ih
  obtain ⟨rounds, last, hrun, hrest⟩ := hmeets.continues hsettled
  have hkept (s : Slot) (hs : state.1.Free s) : v'.Free s := hquiet s (hbefore.free ▸ hs)
  have hround : Shrinks state.1 last.1 := shrinks_run hnodup (hbefore.closed hclosed) hrun
    fun s hs => free_of_free_settle hnodup hrest (hkept s hs)
  refine ⟨hbefore, hround.trans (shrinks_settle hnodup ?_ hrest fun s hs => ?_)⟩
  · exact hround.closed (hbefore.closed hclosed)
  · exact hkept s (hround.free ▸ hs)

end Rounds

end Runs

theorem shrinks_compressAll (h : v.compressAll = .ok v') : Shrinks v v' :=
  ⟨funext fun _ => propext (free_compressAll_iff h), fun _ hs =>
    sets_compressAll_of_free h hs ▸ .refl _⟩

/-- If no slot comes to be replaced, none is dissolved. -/
theorem inlineAll_eq_self_of_free {steps : Nat} (h : ∀ s, v.Free s → (inlineAll steps v).Free s) :
    inlineAll steps v = v := by
  cases steps with
  | zero => rfl
  | succ steps =>
    unfold inlineAll at h ⊢
    split
    next slot container hused =>
      rw [hused] at h
      have hused := usedOnce_of_usedOnce? hused
      have hgone : ¬ (inlineAll steps (v.inlineInto slot container)).Free slot := by
        refine inlineAll_induct (I := fun w => ¬ w.Free slot) ?_ ?_ steps
        · exact fun hs => (free_inlineInto_iff.1 hs).2 rfl
        · exact fun _ _ _ _ hgone hs => hgone (free_inlineInto_iff.1 hs).1
      exact absurd (h slot hused.free) hgone
    · rfl

/-! ## Turns that change nothing -/

/-- The slots that are not replaced are the same and have the same sets. -/
structure Unmoved (m v : SlotValues) : Prop where
  named : v.Over Named
  slots : v.slots = m.slots
  free : v.Free = m.Free
  getD : ∀ s, m.Free s → v.getD s = m.getD s

/-- What a turn finds that changes nothing. -/
structure Idle (alike : OrderedSet Template → OrderedSet Template → Bool) (m : SlotValues) (s : Slot) :
    Prop where
  apart : ∀ k ∈ laterThan m.slots s, m.Free k → alike (m.getD s) (m.getD k) = false
  divided : m.Divided s
  unprovided : ∀ k ∈ laterThan m.slots s, k ∈ slotMembers (m.getD s) → ∀ t ∈ m.sets s, t ∉ m.sets k
  uncovered : ∀ k ∈ slotMembers (m.getD s), ¬ m.Covers (m.getD s) k

section Turn

variable (hexact : ∀ a b, alike a b = true → a.sameMembers b = true) (hnodup : m.slots.Nodup)
  (hnamed : ∀ s ∈ m.slots, Named s) (hclosed : m.Closed) (ht : turn alike m.slots state slot = .ok state')
  (h : Unmoved m state.1) (h' : Unmoved m state'.1) (hkey : slot ∈ m.slots) (hslot : m.Free slot)

include hexact hnodup hnamed hclosed ht h h' hkey hslot

theorem idle_of_unmoved : Idle alike m slot := by
  have hworked := worked_of_turn hnodup ht (h.free ▸ hslot)
  have hidle : gathering alike m.slots state slot = untouched state slot :=
    hworked.idle (by rw [h.free, h'.free]; exact fun _ hs => hs)
  have hown : (untouched state slot).own = m.getD slot := h.getD slot hslot
  have hover : SetOver (untouched state slot).all.Free (untouched state slot).own := by
    rw [hown]
    exact h.free ▸ hclosed slot hslot
  have hleft : remaining (laterThan m.slots slot) slot (untouched state slot) =
      (untouched state slot).own := by
    rw [hown, ← hidle, ← hworked.getD_self, h'.getD slot hslot]
  obtain ⟨hprovided, hcovered⟩ : dropProvided state.1 (laterThan m.slots slot) (m.getD slot) =
      m.getD slot ∧ dropCovered state.1 (m.getD slot) = m.getD slot :=
    hown ▸ drops_eq_self_of_remaining hover hleft
  have hsets {k : Slot} (hk : k ∈ slotMembers (m.getD slot)) : state.1.getD k = m.getD k :=
    h.getD k (Template.over_ofSlot_iff.1 (hclosed slot hslot _ (mem_slotMembers.1 hk)))
  refine ⟨fun k hk hfree => ?_, fun k => ?_, fun k hlater hk t ht htk => ?_, fun k hk hcovers => ?_⟩
  · rw [← h.getD slot hslot, ← h.getD k hfree]
    refine not_alike_of_free_gathering hexact hnodup h.named hnamed hkey hk ?_
    rw [hidle]
    exact h.free ▸ hfree
  · have := (hworked.free_self (h'.free ▸ hslot)).2 k
    rwa [sets, h'.getD slot hslot] at this
  · rw [sets, ← hprovided] at ht
    have hgone := (mem_dropProvided_iff.1 ht).2 k hk hlater
    rw [hsets hk, OrderedSet.contains_of_mem htk] at hgone
    cases hgone
  · refine (dropCovered_eq_self_iff h.named (h.getD slot hslot ▸ h.named.values slot)).1 hcovered k hk ?_
    refine ⟨h.slots ▸ hcovers.1, fun t ht => ?_⟩
    rw [sets, hsets hk] at ht
    refine (hcovers.2 t ht).imp_right ?_
    rintro ⟨k', hk', hne, htk'⟩
    refine ⟨k', hk', hne, ?_⟩
    rwa [sets, hsets hk']

end Turn

/-! ## A second run that comes to the same sets -/

theorem sameValues_refl (v : SlotValues) : v.sameValues v = true := by
  rw [sameValues, beq_self_eq_true, Bool.true_and, List.all_eq_true]
  rintro ⟨s, own⟩ hmem
  have hget : v.get? s = some own := OrderedMap.get?_eq_some_iff.2 hmem
  simp only [hget, OrderedSet.sameMembers, OrderedSet.subset, beq_self_eq_true, Bool.true_and,
    List.all_eq_true]
  exact fun t ht => OrderedSet.contains_of_mem ht

theorem sameMembers_of_sameValues (h : v.sameValues v' = true) (hkeys : v'.slots = v.slots) (s : Slot) :
    (v.getD s).sameMembers (v'.getD s) = true := by
  rw [sameValues, Bool.and_eq_true, List.all_eq_true] at h
  cases hget : v.get? s with
  | some own =>
    have hentry := h.2 _ (OrderedMap.get?_eq_some_iff.1 hget)
    cases hget' : v'.get? s with
    | some templates => simpa [getD, hget, hget'] using hentry
    | none => simp [hget'] at hentry
  | none =>
    have hkey : v'.get? s = none := by
      rw [← Option.not_isSome_iff_eq_none, get?, ← OrderedMap.contains_eq_isSome,
        OrderedMap.contains_iff_mem_keys]
      change s ∉ v'.slots
      rw [hkeys, slots, ← OrderedMap.contains_iff_mem_keys, OrderedMap.contains_eq_isSome]
      simpa [get?] using hget
    simp [getD, hget, hkey, OrderedSet.sameMembers, OrderedSet.subset]

section Stays

variable (h : m.Merged) (hm' : m.mergeBy alike = .ok m') (hvalues : m'.sameValues m = true)
  (hreplacements : ∀ s, m'.replacement? s = m.replacement? s)

include h hm' hvalues hreplacements

/-- A run that ends with the same replacements and the same sets follows no replacement and dissolves
no slot, and its rounds change no set. -/
theorem rounds_of_stays :
    m.Closed ∧ ∃ settled, Settled alike m settled ∧
      ∀ s, m.Free s → settled.Free s ∧ settled.sets s = m.sets s := by
  have hnodup : m.slots.Nodup := m.values.nodup_keys
  have hsame (s : Slot) : (m'.getD s).sameMembers (m.getD s) = true :=
    sameMembers_of_sameValues hvalues (h.keys.mergeBy hm').slots.symm s
  have hover := over_mergeBy h.named hm'
  obtain ⟨settled, compressed, hsettled, hcompressed, hlast⟩ := mergeBy_eq_ok_iff.1 hm'
  have hfollowed : compressed.followAll.Free = compressed.Free :=
    free_eq_of_replacements (replacements_foldl_followIn compressed _)
  have hkept (s : Slot) (hs : m.Free s) : m'.Free s := (hreplacements s).trans hs
  have hinline : inlineAll compressed.size compressed.followAll = compressed.followAll := by
    refine inlineAll_eq_self_of_free fun s hs => (free_compressAll_iff hlast).1 (hkept s ?_)
    exact Meets.start.free hnodup hsettled ((free_compressAll_iff hcompressed).1 (hfollowed ▸ hs))
  rw [hinline] at hlast
  have hclosed : m.Closed := by
    have hclosed' := (shrinks_compressAll hlast).closed (closed_followAll (direct_compressAll hcompressed))
    intro s hs t ht k hk
    have ht' := (mem_of_sameMembers (hover.values s) (h.named.values s) (hsame s)).1 ht
    exact (hreplacements k).symm.trans (hclosed' s (hkept s hs) t ht' k hk)
  have hfree (s : Slot) (hs : m.Free s) : settled.Free s := by
    have hs := (free_compressAll_iff hlast).1 (hkept s hs)
    exact (free_compressAll_iff hcompressed).1 (hfollowed ▸ hs)
  have hrounds : Shrinks m settled := shrinks_settle hnodup hclosed hsettled hfree
  have hcompress : Shrinks settled compressed := shrinks_compressAll hcompressed
  rw [followAll_eq_self (hcompress.closed (hrounds.closed hclosed))] at hlast
  have hrest : Shrinks settled m' := hcompress.trans (shrinks_compressAll hlast)
  have hend (s : Slot) (hs : m.Free s) : m'.sets s = m.sets s :=
    ((hrounds.trans hrest).sets s hs).eq_of_length (size_eq_of_sameMembers (hsame s))
  exact ⟨hclosed, settled, hsettled, fun s hs =>
    ⟨hfree s hs, congrArg OrderedSet.toList (hrounds.getD_eq hrest hend hs)⟩⟩

/-- Such a run leaves each state as it was. -/
theorem unmoved_of_meets
    (hmeets : Meets alike m.slots (m.slots.mergeSort Slot.le) m state dirty) : Unmoved m state.1 := by
  obtain ⟨hclosed, settled, hsettled, hend⟩ := rounds_of_stays h hm' hvalues hreplacements
  obtain ⟨hbefore, hafter⟩ := shrinks_of_meets m.values.nodup_keys hsettled hmeets hclosed
    fun s hs => (hend s hs).1
  exact
    { named := h.named.of_meets hmeets
      slots := (h.keys.of_meets hmeets).slots
      free := hbefore.free
      getD := fun s hs => hbefore.getD_eq hafter (fun s hs => (hend s hs).2) hs }

/-- Slot values that stay the same are irreducible: each slot that is not replaced has a turn. -/
theorem irreducible_of_stays (halike : ∀ a b, alike a b = true ↔ a.sameMembers b = true) :
    m.Irreducible := by
  have hnodup : m.slots.Nodup := m.values.nodup_keys
  obtain ⟨hclosed, settled, hsettled, -⟩ := rounds_of_stays h hm' hvalues hreplacements
  have hidle (s : Slot) (hs : s ∈ m.unreplaced) : Idle alike m s := by
    obtain ⟨hkey, hfree⟩ := mem_unreplaced_iff.1 hs
    obtain ⟨state, state', rest, hmeets, ht⟩ := exists_turn_of_settle hsettled
      (List.mem_mergeSort.2 hkey)
    exact idle_of_unmoved (fun a b => (halike a b).1) hnodup h.named.keys hclosed ht
      (unmoved_of_meets h hm' hvalues hreplacements hmeets)
      (unmoved_of_meets h hm' hvalues hreplacements (hmeets.turn ht)) hkey hfree
  refine ⟨hclosed, fun s hs k hk hsame => ?_, fun s hs => (hidle s hs).divided,
    fun s hs => (hidle s hs).unprovided, fun s hs => (hidle s hs).uncovered⟩
  have hlater {s k : Slot} (hs : s ∈ m.unreplaced) (hk : k ∈ m.unreplaced)
      (hsame : (m.getD s).sameMembers (m.getD k) = true) : k ∉ laterThan m.slots s := by
    intro hlater
    have hapart := (hidle s hs).apart k hlater (mem_unreplaced_iff.1 hk).2
    rw [(halike _ _).2 hsame] at hapart
    cases hapart
  refine Decidable.byContradiction fun hne => ?_
  rcases mem_laterThan_or (mem_unreplaced_iff.1 hs).1 (mem_unreplaced_iff.1 hk).1 hne with hks | hsk
  · exact hlater hs hk hsame hks
  · exact hlater hk hs (sameMembers_symm (h.named.values s) (h.named.values k) hsame) hsk

end Stays

/-! ## Fixed points -/

theorem similar_iff {threshold : Float} (hexact : threshold ≥ 1.0) (a b : OrderedSet Template) :
    similar threshold a b = true ↔ a.sameMembers b = true := by
  rw [similar, if_pos hexact]

/-- **When exact merging has come to a fixed point.** Let all slots be named and none be replaced, and
let merging at a threshold of 1 or more give `m`. Merging `m` once more at that threshold succeeds with
the same value sets and the same replacements exactly if `m` is irreducible: no value of a slot that is
not replaced mentions a replaced slot, no two slots that are not replaced have the same values, none has
a slot as its only value, none shares a value with a later slot that is a value of it, and none has a
slot as a value for which its other values provide. If it is so, what comes out is `m` itself. It is so
if no value to begin with mentions a slot that has values itself. -/
theorem merge_fixed_iff {threshold : Float} (hnamed : v.Over Named) (hfresh : v.replacements = .empty)
    (hexact : threshold ≥ 1.0) (hm : v.merge threshold = .ok m) :
    ((∃ m', m.merge threshold = .ok m' ∧ m'.sameValues m = true ∧
        ∀ s, m'.replacement? s = m.replacement? s) ↔ m.Irreducible) ∧
      (m.Irreducible → m.merge threshold = .ok m) ∧ (v.Plain → m.Irreducible) := by
  have hrecorded : v.Recorded := fun s hs => by simp [isReplaced, hfresh] at hs
  have hmerged := merged_of_mergeBy hnamed hrecorded hm
  have hstays (hirr : m.Irreducible) : m.merge threshold = .ok m :=
    mergeBy_eq_self hmerged hirr fun a b => (similar_iff hexact a b).1
  refine ⟨⟨?_, fun hirr => ?_⟩, hstays, fun hplain => ?_⟩
  · rintro ⟨m', hm', hvalues, hreplacements⟩
    exact irreducible_of_stays hmerged hm' hvalues hreplacements (similar_iff hexact)
  · exact ⟨m, hstays hirr, sameValues_refl m, fun _ => rfl⟩
  · exact irreducible_of_plain (fun a b => (similar_iff hexact a b).1) hnamed hrecorded.keysAre hplain
      (fun a b => (similar_iff hexact a b).2) hm

/-- What there is to slot values, written out. -/
def written (v : SlotValues) : List (Slot × List Template) × List (Slot × Slot) :=
  (v.values.entries.map fun e => (e.1, e.2.toList), v.replacements.entries)

theorem eq_of_written_eq (h : v.written = v'.written) : v = v' := by
  obtain ⟨⟨es, _⟩, ⟨rs, _⟩⟩ := v
  obtain ⟨⟨es', _⟩, ⟨rs', _⟩⟩ := v'
  obtain ⟨hvalues, rfl⟩ : _ ∧ rs = rs' := Prod.mk.inj h
  have hinj : Function.Injective fun e : Slot × OrderedSet Template => (e.1, e.2.toList) := by
    rintro ⟨s, own⟩ ⟨s', own'⟩ heq
    obtain ⟨hslot, hown⟩ := Prod.mk.inj heq
    exact Prod.ext hslot (OrderedSet.eq_of_toList_eq hown)
  obtain rfl : es = es' := hinj.list_map hvalues
  rfl

theorem eq_ok_of_written {x : Except Failure SlotValues} (h : x.toOption.map written = some m.written) :
    x = .ok m := by
  obtain ⟨m', hm', heq⟩ := exists_of_toOption h
  rw [hm', eq_of_written_eq heq]

/-- Slots of which two have the same values and are values of the two others. -/
def equalParts : SlotValues :=
  ofNames ["A", "B", "C", "D"] [("A", "C"), ("A", "x"), ("B", "D"), ("B", "y"), ("C", "c"), ("C", "d"),
    ("D", "d"), ("D", "c")]

/-- Slots without references of which two have the same values. -/
def equalTexts : SlotValues := ofNames ["A", "B", "C"] [("A", "x"), ("B", "y"), ("C", "x")]

/-- Slots that are irreducible after merging, with references and without. -/
theorem merge_fixed_iff_of_equalParts :
    (equalParts.Over Named ∧ equalParts.replacements = .empty ∧ (1.0 : Float) ≥ 1.0 ∧
      ∃ m, equalParts.merge 1.0 = .ok m ∧ m.replacement? (.named "D") = some (.named "C") ∧
        m.Irreducible ∧ m.merge 1.0 = .ok m ∧
        ∃ m', m.merge 1.0 = .ok m' ∧ m'.sameValues m = true ∧
          ∀ s, m'.replacement? s = m.replacement? s) ∧
    (equalTexts.Over Named ∧ equalTexts.replacements = .empty ∧ equalTexts.Plain ∧
      ∃ m, equalTexts.merge 1.0 = .ok m ∧ m.replacement? (.named "C") = some (.named "A") ∧
        m.Irreducible) := by
  have hexact : (1.0 : Float) ≥ 1.0 := by decide +kernel
  have hparts : equalParts.Over Named := over_of_entries rfl (by decide)
  have htexts : equalTexts.Over Named := over_of_entries rfl (by decide)
  have hplain : equalTexts.Plain := plain_of_slots (by decide)
  obtain ⟨m, hm, hfacts⟩ : ∃ m, equalParts.merge 1.0 = .ok m ∧
      (m.replacement? (.named "D"), decide m.Irreducible) = (some (.named "C"), true) := by
    apply exists_of_toOption
    rw [merge, mergeBy_of_sorted (by decide)]
    decide +kernel
  obtain ⟨htarget, hirr⟩ := Prod.mk.inj hfacts
  have hirr : m.Irreducible := of_decide_eq_true hirr
  obtain ⟨hiff, hstays, -⟩ := merge_fixed_iff hparts rfl hexact hm
  obtain ⟨n, hn, htarget'⟩ : ∃ n, equalTexts.merge 1.0 = .ok n ∧
      n.replacement? (.named "C") = some (.named "A") := by
    apply exists_of_toOption
    rw [merge, mergeBy_of_sorted (by decide)]
    decide +kernel
  exact ⟨⟨hparts, rfl, hexact, m, hm, htarget, hirr, hstays hirr, hiff.2 hirr⟩,
    htexts, rfl, hplain, n, hn, htarget', (merge_fixed_iff htexts rfl hexact hn).2.2 hplain⟩

/-- Slots of which the second has the values of the first and itself as a value. -/
def ownMember : SlotValues := ofNames ["A", "B"] [("A", "x"), ("B", "B"), ("B", "x")]

/-- Slots of which two have the same values and are values of two others with the same rest. -/
def equalPaths : SlotValues :=
  ofNames ["A", "B", "D", "E"] [("A", "D"), ("A", "x"), ("B", "E"), ("B", "x"), ("D", "c"), ("D", "d"),
    ("E", "c"), ("E", "d")]

/-- Slots that are values of each other. -/
def crossings : SlotValues :=
  ofNames ["A", "B", "C", "D", "E", "F"] [("A", "B"), ("A", "F"), ("B", "D"), ("B", "A"), ("C", "F"),
    ("C", "A"), ("D", "C"), ("E", "B"), ("F", "C"), ("F", "E")]

/-- **What merging leaves need not be a fixed point.** Two slots are left with the same values if the
second has had itself as a value besides, and even if no slot comes back to itself, when the last
replacements have made their values the same; merging once more unites them. It can also fail where
merging has succeeded. -/
theorem merge_moves_on :
    (ownMember.Over Named ∧ ownMember.replacements = .empty ∧ ∃ m, ownMember.merge 1.0 = .ok m ∧
      m.replacement? (.named "A") = none ∧ m.replacement? (.named "B") = none ∧
      (m.getD (.named "A")).sameMembers (m.getD (.named "B")) = true ∧
      ∃ m', m.merge 1.0 = .ok m' ∧ m'.replacement? (.named "B") = some (.named "A")) ∧
    (equalPaths.Over Named ∧ equalPaths.replacements = .empty ∧ equalPaths.Acyclic ∧
      ∃ m, equalPaths.merge 1.0 = .ok m ∧
      m.replacement? (.named "A") = none ∧ m.replacement? (.named "B") = none ∧
      (m.getD (.named "A")).sameMembers (m.getD (.named "B")) = true ∧
      ∃ m', m.merge 1.0 = .ok m' ∧ m'.replacement? (.named "B") = some (.named "A")) ∧
    (crossings.Over Named ∧ crossings.replacements = .empty ∧ ∃ m, crossings.merge 1.0 = .ok m ∧
      m.merge 1.0 = .error (.replacementCycle (.named "A"))) := by
  refine ⟨⟨over_of_entries rfl (by decide), rfl,
      ofNames ["A", "B"] [("A", "x"), ("B", "x")], eq_ok_of_written ?_, rfl, rfl, by decide, ?_⟩,
    ⟨over_of_entries rfl (by decide), rfl,
      acyclic_of_rank (fun s => if s = .named "A" ∨ s = .named "B" then 1 else 0) (by decide),
      (ofNames ["A", "B", "D"] [("A", "D"), ("A", "x"), ("B", "D"), ("B", "x"), ("D", "c"),
        ("D", "d")]).replace (.named "E") (.named "D"), eq_ok_of_written ?_, rfl, rfl, by decide, ?_⟩,
    ⟨over_of_entries rfl (by decide), rfl,
      ((ofNames ["A", "B", "C", "D", "E", "F"] [("A", "B"), ("A", "F"), ("B", "C"), ("B", "A"),
        ("C", "F"), ("C", "A"), ("D", "C"), ("E", "B"), ("F", "C"), ("F", "B")]).replace (.named "D")
        (.named "C")).replace (.named "E") (.named "B"), eq_ok_of_written ?_, eq_error_of_tryCatch ?_⟩⟩
  case refine_2 | refine_4 =>
    apply exists_of_toOption
    rw [merge, mergeBy_of_sorted (by decide)]
    decide +kernel
  all_goals
    rw [merge, mergeBy_of_sorted (by decide)]
    decide +kernel

end SlotValues

end GrammarInduction
