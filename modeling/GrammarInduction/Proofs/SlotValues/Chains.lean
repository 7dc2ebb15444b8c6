import GrammarInduction.Proofs.SlotValues.Links

/-!
# Chains of replacements that come back

A chain of replacements can be followed to its end if it does not come back to itself (`Straight`).
Pointing a slot at the end of its chain, and dissolving a slot, keep replacements straight, and a
cycle of replacements stays one in every turn. So merging succeeds if the rounds come to an
end with straight replacements (`exists_mergeBy`), and no state that is met has had a cycle then
(`straight_of_meets`).
-/

namespace GrammarInduction

namespace SlotValues

variable {v v' m : SlotValues} {slot target last container s k : Slot} {slots sorted dirty : List Slot}
  {state state' : SlotValues × List Slot} {alike : OrderedSet Template → OrderedSet Template → Bool}

/-- The first slot is replaced by the second one. -/
def LeadsTo (v : SlotValues) (s k : Slot) : Prop := v.replacement? s = some k

/-- No chain of replacements comes back to its beginning. -/
def Straight (v : SlotValues) : Prop := ∀ s, ¬ Relation.TransGen v.LeadsTo s s

/-! ## Following a chain -/

/-- A slot that is replaced is a key, and a chain that leads to it has not passed it before. -/
theorem nodup_and_subset_of_leadsTo {keys passed : List Slot} {next : Slot} (hv : v.Straight)
    (hkeys : KeysAre keys v) (hnodup : passed.Nodup) (hsub : passed ⊆ keys)
    (hpassed : ∀ s ∈ passed, Relation.TransGen v.LeadsTo s target)
    (hnext : v.replacement? target = some next) :
    (target :: passed).Nodup ∧ target :: passed ⊆ keys :=
  ⟨List.nodup_cons.2 ⟨fun hmem => hv target (hpassed target hmem), hnodup⟩,
    List.cons_subset.2 ⟨hkeys.replaced target (not_free_of_replacement hnext), hsub⟩⟩

/-- The end of a straight chain is found within as many steps as there are keys. The slots passed so
far are different keys. -/
theorem exists_chainEnd {keys passed : List Slot} (hv : v.Straight) (hkeys : KeysAre keys v)
    {limit : Nat} (hnodup : passed.Nodup) (hsub : passed ⊆ keys)
    (hpassed : ∀ s ∈ passed, Relation.TransGen v.LeadsTo s target) (hslot : slot ∈ passed)
    (hlimit : keys.length ≤ passed.length + limit) :
    ∃ last, v.chainEnd? slot limit target = some last := by
  induction limit generalizing passed target with
  | zero =>
    unfold chainEnd?
    cases hnext : v.replacement? target with
    | none => exact ⟨target, rfl⟩
    | some next =>
      obtain ⟨hnodup, hsub⟩ := nodup_and_subset_of_leadsTo hv hkeys hnodup hsub hpassed hnext
      have hcount := (List.subperm_of_subset hnodup hsub).length_le
      rw [List.length_cons] at hcount
      omega
  | succ limit ih =>
    unfold chainEnd?
    cases hnext : v.replacement? target with
    | none => exact ⟨target, rfl⟩
    | some next =>
      obtain ⟨hnodup, hsub⟩ := nodup_and_subset_of_leadsTo hv hkeys hnodup hsub hpassed hnext
      have hne : next ≠ slot := by
        rintro rfl
        exact hv next ((hpassed next hslot).tail hnext)
      simp only [hne, if_false]
      refine ih hnodup hsub ?_ (.tail _ hslot) (by rw [List.length_cons]; omega)
      intro s hs
      rcases List.mem_cons.1 hs with rfl | hs
      · exact .single hnext
      · exact (hpassed s hs).tail hnext

theorem exists_compress {keys : List Slot} {limit : Nat} (hv : v.Straight) (hkeys : KeysAre keys v)
    (hlimit : keys.length ≤ limit) (slot : Slot) : ∃ r, v.compress limit slot = .ok r := by
  unfold compress
  cases htarget : v.replacement? slot with
  | none => exact ⟨_, rfl⟩
  | some target =>
    have hkey : slot ∈ keys := hkeys.replaced slot (not_free_of_replacement htarget)
    have hend : ∃ last, v.chainEnd? slot limit target = some last :=
      exists_chainEnd hv hkeys (List.nodup_singleton slot)
        (List.cons_subset.2 ⟨hkey, List.nil_subset _⟩)
        (fun s hs => List.mem_singleton.1 hs ▸ .single htarget) (.head _)
        (Nat.le_add_left_of_le hlimit)
    obtain ⟨last, hlast⟩ := hend
    exact ⟨(v.replace slot last, v.isReplaced target), by simp only [hlast]⟩

/-! ## Straight replacements are kept -/

/-- Pointing a slot at one that is not replaced makes no cycle. -/
theorem Straight.replace (hv : v.Straight) (hlast : v.Free last) (hne : last ≠ slot) :
    (v.replace slot last).Straight := by
  have hlink {s k : Slot} (h : (v.replace slot last).LeadsTo s k) :
      v.LeadsTo s k ∨ k = last := by
    rw [LeadsTo, replacement?_replace_eq] at h
    split at h
    · exact .inr (Option.some.inj h).symm
    · exact .inl h
  have hend (k : Slot) : ¬ (v.replace slot last).LeadsTo last k := by
    rw [LeadsTo, replacement?_replace_eq, if_neg hne.symm, hlast]
    exact nofun
  -- A slot that leads on is not the new end, so that all links of a cycle are old.
  have hold {s k next : Slot} (h : Relation.TransGen (v.replace slot last).LeadsTo s k)
      (hnext : (v.replace slot last).LeadsTo k next) : Relation.TransGen v.LeadsTo s k := by
    induction h generalizing next with
    | single h => exact .single ((hlink h).resolve_right fun heq => hend next (heq ▸ hnext))
    | tail _ h ih => exact (ih h).tail ((hlink h).resolve_right fun heq => hend next (heq ▸ hnext))
  intro s hs
  obtain ⟨next, hnext, -⟩ := Relation.TransGen.head'_iff.1 hs
  exact hv s (hold hs hnext)

theorem Straight.compress (hv : v.Straight) {limit : Nat} {r : SlotValues × Bool}
    (hr : v.compress limit slot = .ok r) : r.1.Straight := by
  rcases compress_eq_ok hr with ⟨-, rfl⟩ | ⟨target, last, htarget, hlast, rfl⟩
  · exact hv
  · have hfree := free_chainEnd hlast
    exact hv.replace hfree fun hne => not_free_of_replacement htarget (hne ▸ hfree)

theorem exists_compressAll {keys : List Slot} (hv : v.Straight) (hkeys : KeysAre keys v) :
    ∃ v', v.compressAll = .ok v' ∧ v'.Straight ∧ KeysAre keys v' := by
  have hlimit : keys.length ≤ v.size + v.replacements.keys.length := by
    rw [← hkeys.slots, slots, OrderedMap.keys, List.length_map]
    exact Nat.le_add_right _ _
  refine exists_foldlM (I := fun _ w => w.Straight ∧ KeysAre keys w) ⟨hv, hkeys⟩ ?_
  rintro slot _ w ⟨hw, hkeys⟩
  obtain ⟨r, hr⟩ := exists_compress hw hkeys hlimit slot
  exact ⟨r.1, by rw [hr]; rfl, hw.compress hr, hkeys.compress hr⟩

theorem Straight.of_replacements (hv : v.Straight) (h : v'.replacements = v.replacements) :
    v'.Straight := by
  have heq : v'.LeadsTo = v.LeadsTo := by
    funext s k
    rw [LeadsTo, replacement?, h]
    rfl
  rwa [Straight, heq]

theorem Straight.inlineInto (hv : v.Straight) (h : UsedOnce v slot container) :
    (v.inlineInto slot container).Straight :=
  (hv.of_replacements rfl).replace h.container_free h.ne

/-! ## Cycles are kept -/

/-- All that a cycle leads to is on a cycle. -/
theorem cycle_of_reaches (hs : Relation.TransGen v.LeadsTo s s)
    (hk : Relation.ReflTransGen v.LeadsTo s k) : Relation.TransGen v.LeadsTo k k := by
  induction hk with
  | refl => exact hs
  | @tail mid k _ hlink ih =>
    obtain ⟨next, hnext, hback⟩ := Relation.TransGen.head'_iff.1 ih
    obtain rfl : next = k := Option.some.inj (hnext.symm.trans hlink)
    exact .tail' hback hlink

theorem not_free_of_cycle (hs : Relation.TransGen v.LeadsTo s s) : ¬ v.Free s := by
  obtain ⟨k, hk, -⟩ := Relation.TransGen.head'_iff.1 hs
  exact not_free_of_replacement hk

theorem cycle_of_kept (hs : Relation.TransGen v.LeadsTo s s)
    (hkept : ∀ k, Relation.ReflTransGen v.LeadsTo s k → v'.replacement? k = v.replacement? k) :
    Relation.TransGen v'.LeadsTo s s := by
  have hlift {k : Slot} (hk : Relation.TransGen v.LeadsTo s k) : Relation.TransGen v'.LeadsTo s k := by
    induction hk with
    | single hlink => exact .single ((hkept s .refl).trans hlink)
    | tail hk hlink ih => exact ih.tail ((hkept _ hk.to_reflTransGen).trans hlink)
  exact hlift hs

theorem reaches_chainEnd {limit : Nat} (h : v.chainEnd? slot limit target = some last) :
    Relation.ReflTransGen v.LeadsTo target last :=
  chainEnd?_induct (I := (Relation.ReflTransGen v.LeadsTo · last)) h (fun _ => .refl)
    fun _ _ hnext _ ih => .head hnext ih

/-- Pointing a slot at the end of its chain leaves cycles as they are: the chain is none of them. -/
theorem cycle_replace {limit : Nat} (hs : Relation.TransGen v.LeadsTo s s)
    (htarget : v.replacement? slot = some target)
    (hlast : v.chainEnd? slot limit target = some last) :
    Relation.TransGen (v.replace slot last).LeadsTo s s := by
  refine cycle_of_kept hs fun k hk => ?_
  rw [replacement?_replace_eq, if_neg]
  rintro rfl
  have hreach : Relation.ReflTransGen v.LeadsTo s last :=
    hk.trans (.head htarget (reaches_chainEnd hlast))
  exact not_free_of_cycle (cycle_of_reaches hs hreach) (free_chainEnd hlast)

theorem cycle_turn (hnodup : slots.Nodup) (hs : Relation.TransGen state.1.LeadsTo s s)
    (ht : turn alike slots state slot = .ok state') : Relation.TransGen state'.1.LeadsTo s s := by
  rcases turn_cases hnodup ht with ⟨target, last, htarget, hlast, rfl⟩ | ⟨hfree, hworked⟩
  · exact cycle_replace hs htarget hlast
  · exact cycle_of_kept hs fun k hk =>
      hworked.kept hfree (not_free_of_cycle (cycle_of_reaches hs hk))

theorem Direct.straight (h : v.Direct) : v.Straight := by
  intro s hs
  obtain ⟨k, hk, hback⟩ := Relation.TransGen.head'_iff.1 hs
  exact not_free_of_cycle (cycle_of_reaches hs (.single hk)) (h s k hk)

/-- If all chains can be compressed, none comes back. -/
theorem straight_of_compressAll (h : v.compressAll = .ok v') : v.Straight := by
  intro s hs
  refine (direct_compressAll h).straight s ?_
  refine compressAll_induct (I := fun w => Relation.TransGen w.LeadsTo s s) hs ?_ h
  intro limit slot w r hw hr
  rcases compress_eq_ok hr with ⟨-, rfl⟩ | ⟨target, last, htarget, hlast, rfl⟩
  · exact hw
  · exact cycle_replace hw htarget hlast

/-! ## How merging fails -/

theorem compress_error {limit : Nat} {e : Failure} (h : v.compress limit slot = .error e) :
    e = .replacementCycle slot := by
  unfold compress at h
  split at h
  · cases h
  · split at h
    · exact (Except.error.inj h).symm
    · cases h

theorem compressAll_error {e : Failure} (h : v.compressAll = .error e) :
    ∃ slot, e = .replacementCycle slot := by
  obtain ⟨slot, -, w, h⟩ := foldlM_error h
  exact ⟨slot, compress_error (map_eq_error h)⟩

theorem turn_error {e : Failure} (h : turn alike slots state slot = .error e) :
    e = .replacementCycle slot := by
  unfold turn at h
  simp only at h
  split at h
  · exact compress_error (map_eq_error h)
  · cases h

/-- The turn of a slot succeeds where no chain comes back. -/
theorem exists_turn (hv : state.1.Straight) (hkeys : KeysAre slots state.1) (slot : Slot) :
    ∃ state', turn alike slots state slot = .ok state' := by
  unfold turn
  simp only
  split
  · obtain ⟨r, hr⟩ := exists_compress hv hkeys (Nat.le_refl _) slot
    rw [hr]
    exact ⟨_, rfl⟩
  · exact ⟨_, rfl⟩

/-! ## Merging succeeds where no chain comes back -/

/-- What is left to do after the rounds succeeds if they leave straight replacements. -/
theorem exists_mergeBy {settled : SlotValues} (hkeys : KeysAre slots settled)
    (hsettled : Settled alike v settled) (hstraight : settled.Straight) :
    ∃ m, v.mergeBy alike = .ok m := by
  obtain ⟨u, hu, hstraight, hkeys⟩ := exists_compressAll hstraight hkeys
  have hfollowed : u.followAll.Straight :=
    hstraight.of_replacements (replacements_foldl_followIn u u.unreplaced)
  obtain ⟨hstraight, hkeys⟩ := inlineAll_induct (I := fun w => w.Straight ∧ KeysAre slots w)
    ⟨hfollowed, hkeys.followAll⟩ (fun _ _ _ hused hw => ⟨hw.1.inlineInto hused, hw.2.inlineInto hused⟩)
    u.size
  obtain ⟨m, hm, -⟩ := exists_compressAll hstraight hkeys
  exact ⟨m, mergeBy_eq_ok_iff.2 ⟨settled, u, hsettled, hu, hm⟩⟩

/-- The rounds go on from each state that is met. -/
theorem Meets.continues {allowed rounds : Nat} {settled : SlotValues}
    (hmeets : Meets alike slots sorted v state dirty)
    (h : settle alike slots sorted allowed rounds v sorted = .ok settled) :
    ∃ rounds state', dirty.foldlM (SlotValues.turn alike slots) state = .ok state' ∧
      settle alike slots sorted allowed rounds state'.1 (sorted.filter state'.2.contains) =
        .ok settled := by
  have hround {rounds : Nat} {v : SlotValues} {dirty : List Slot}
      (h : settle alike slots sorted allowed rounds v dirty = .ok settled) :
      ∃ rounds state', dirty.foldlM (SlotValues.turn alike slots) (v, []) = .ok state' ∧
        settle alike slots sorted allowed rounds state'.1 (sorted.filter state'.2.contains) =
          .ok settled := by
    cases dirty with
    | nil =>
      refine ⟨rounds, (v, []), rfl, ?_⟩
      have hnone : sorted.filter ([] : List Slot).contains = [] := List.filter_eq_nil_iff.2 (by simp)
      rwa [hnone]
    | cons slot rest =>
      cases rounds with
      | zero => cases h
      | succ rounds =>
        obtain ⟨state', hfold, h⟩ := bind_eq_ok h
        exact ⟨rounds, state', hfold, h⟩
  induction hmeets with
  | start => exact hround h
  | turn _ ht ih =>
    obtain ⟨rounds, state', hfold, h⟩ := ih
    rw [List.foldlM_cons, ht] at hfold
    exact ⟨rounds, state', hfold, h⟩
  | round _ ih =>
    obtain ⟨rounds, state', hfold, h⟩ := ih
    obtain rfl := Except.ok.inj hfold
    exact hround h

theorem Meets.run {rest : List Slot} (hmeets : Meets alike slots sorted v state (dirty ++ rest))
    (hrun : dirty.foldlM (SlotValues.turn alike slots) state = .ok state') :
    Meets alike slots sorted v state' rest :=
  foldlM_induct_rest (I := fun dirty state => Meets alike slots sorted v state (dirty ++ rest)) hmeets
    (fun _ _ _ _ hmeets ht => hmeets.turn ht) hrun

/-- Each slot has a turn in the first round. -/
theorem exists_turn_of_settle {allowed rounds : Nat} {settled : SlotValues}
    (h : settle alike slots sorted allowed rounds v sorted = .ok settled) (hslot : slot ∈ sorted) :
    ∃ state state' rest, Meets alike slots sorted v state (slot :: rest) ∧
      turn alike slots state slot = .ok state' := by
  obtain ⟨_, last, hrun, -⟩ := Meets.start.continues h
  obtain ⟨before, after, state, state', hsplit, hbefore, ht, -⟩ := exists_step_of_mem hslot hrun
  have hstart : Meets alike slots sorted v (v, []) (before ++ slot :: after) := hsplit ▸ .start
  exact ⟨state, state', after, hstart.run hbefore, ht⟩

/-- What holds of a state that is met and is kept by each turn holds of what the rounds end with. -/
theorem Meets.settled_induct {I : SlotValues → Prop} {allowed rounds : Nat} {settled : SlotValues}
    (hturn : ∀ state slot rest state', Meets alike slots sorted v state (slot :: rest) →
      I state.1 → SlotValues.turn alike slots state slot = .ok state' → I state'.1)
    (hmeets : Meets alike slots sorted v state dirty) (hI : I state.1)
    (h : settle alike slots sorted allowed rounds v sorted = .ok settled) : I settled := by
  obtain ⟨rounds, last, hrun, hsettled⟩ := hmeets.continues h
  obtain ⟨hmeets, hI⟩ := round_induct hturn hmeets hI hrun
  exact (settle_induct hturn hmeets.round hI hsettled).2

/-- A slot that is not replaced in the end is not replaced before. -/
theorem Meets.free {allowed rounds : Nat} {settled : SlotValues} (hnodup : slots.Nodup)
    (hmeets : Meets alike slots sorted v state dirty)
    (h : settle alike slots sorted allowed rounds v sorted = .ok settled) (hs : settled.Free s) :
    state.1.Free s := by
  refine Decidable.byContradiction fun hgone => ?_
  exact hmeets.settled_induct (I := fun w => ¬ w.Free s)
    (fun _ _ _ _ _ hgone ht hs => hgone (free_of_free_turn hnodup ht hs)) hgone h hs

/-- **If merging succeeds, no state that is met has a cycle of replacements.** -/
theorem straight_of_meets (hm : v.mergeBy alike = .ok m)
    (hmeets : Meets alike v.slots (v.slots.mergeSort Slot.le) v state dirty) : state.1.Straight := by
  obtain ⟨settled, compressed, hsettled, hcompressed, -⟩ := mergeBy_eq_ok_iff.1 hm
  have hnodup : v.slots.Nodup := v.values.nodup_keys
  intro s hs
  refine straight_of_compressAll hcompressed s ?_
  exact hmeets.settled_induct (I := fun w => Relation.TransGen w.LeadsTo s s)
    (fun _ _ _ _ _ hs ht => cycle_turn hnodup hs ht) hs hsettled

end SlotValues

end GrammarInduction
