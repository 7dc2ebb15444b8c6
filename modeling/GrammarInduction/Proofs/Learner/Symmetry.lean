import GrammarInduction.Proofs.Learner.Rounds
import GrammarInduction.Proofs.Template.Kept

/-!
# Merging is symmetric

An alignment read as one of the second sequence with the first, with deletions and insertions exchanged,
is an alignment again, of the same cost (`mem_alignments_mirror`). Merging puts the same along both, but
for the numbers of fresh slots (`erase_mergedTokens_mirror`). So without a limit on the alignments that are
tried two templates have the same merges in either order, and the best of them has the same distance
(`merging_symmetric`).

With a limit this does not hold: of several optimal alignments others come first when the sequences are
exchanged.
-/

namespace GrammarInduction

/-- The same step as seen from the second sequence. -/
def EditOp.mirror : EditOp → EditOp
  | .keep => .keep
  | .substitute => .substitute
  | .delete => .insert
  | .insert => .delete

/-! ## Mirrored alignments -/

namespace Alignment

section Mirror

variable {α : Type u} {xs ys : List α} {ops : List EditOp}

theorem Valid.mirror (h : Valid xs ys ops) : Valid ys xs (ops.map EditOp.mirror) := by
  induction h with
  | nil => exact .nil
  | keep x _ ih => exact .keep x ih
  | substitute hne _ ih => exact .substitute hne.symm ih
  | delete x _ ih => exact .insert x ih
  | insert y _ ih => exact .delete y ih

theorem cost_mirror (ops : List EditOp) : cost (ops.map EditOp.mirror) = cost ops := by
  induction ops with
  | nil => rfl
  | cons op ops ih =>
    rw [List.map_cons, cost, cost, ih]
    cases op <;> rfl

variable [DecidableEq α]

theorem distance_comm (xs ys : List α) : distance xs ys = distance ys xs := by
  have hle (xs ys : List α) : distance xs ys ≤ distance ys xs := by
    obtain ⟨ops, hops, hcost⟩ := exists_cost_eq_distance ys xs
    rw [← hcost, ← cost_mirror]
    exact distance_le_cost hops.mirror
  exact Nat.le_antisymm (hle xs ys) (hle ys xs)

/-- **The optimal alignments of exchanged sequences are mirrored.** -/
theorem mem_alignments_mirror (h : ops ∈ alignments none xs ys) :
    ops.map EditOp.mirror ∈ alignments none ys xs := by
  obtain ⟨hvalid, hcost⟩ := mem_alignments_iff.1 h
  exact mem_alignments_iff.2 ⟨hvalid.mirror, by rw [cost_mirror, hcost, distance_comm]⟩

end Mirror

end Alignment

/-! ## Merges along mirrored alignments -/

namespace Template

section Mirror

variable {minimal : Bool} {op : EditOp} {ops ops' : List EditOp} {xs ys : List Token}
  {last last' : Option Token} {token token' : Token} {id id' : Nat}

/-- What is left out does not depend on the numbers of anonymous slots, nor on whether the operation
deletes or inserts. -/
theorem absorbed_mirror (minimal : Bool) (op : EditOp)
    (hlast : last.map Token.erase = last'.map Token.erase) (htoken : token.erase = token'.erase) :
    absorbed minimal last op token = absorbed minimal last' op.mirror token' := by
  have hany {p : Token → Bool} (hp : ∀ t, p t.erase = p t) : last.any p = last'.any p := by
    have h := congrArg (·.any p) hlast
    simpa [Option.any_map, Function.comp_def, hp] using h
  have hanon : isAnonymous token = isAnonymous token' := by
    rw [← isAnonymous_erase token, htoken, isAnonymous_erase]
  cases op <;> simp only [absorbed, EditOp.mirror, hanon, hany isAnonymous_erase, hany Token.isSlot_erase]

/-- One step of merging, where the token put is the same up to the number of an anonymous slot. -/
theorem erase_mergedTokens_cons (hlast : last.map Token.erase = last'.map Token.erase)
    (htoken : (tokenOf op xs id).erase = (tokenOf op.mirror ys id').erase)
    (hrest : ∀ last last', last.map Token.erase = last'.map Token.erase →
      (mergedTokens minimal ops (afterOp op xs) last (id + 1)).map Token.erase =
        (mergedTokens minimal ops' (afterOp op.mirror ys) last' (id' + 1)).map Token.erase) :
    (mergedTokens minimal (op :: ops) xs last id).map Token.erase =
      (mergedTokens minimal (op.mirror :: ops') ys last' id').map Token.erase := by
  have habs := absorbed_mirror minimal op hlast htoken
  by_cases h : absorbed minimal last op (tokenOf op xs id) = true
  · rw [mergedTokens_of_absorbed h, mergedTokens_of_absorbed (habs ▸ h)]
    exact hrest last last' hlast
  · rw [mergedTokens_of_not_absorbed h, mergedTokens_of_not_absorbed (habs ▸ h), List.map_cons,
      List.map_cons, htoken]
    exact congrArg _ (hrest (some _) (some _) (congrArg some htoken))

/-- **Along mirrored alignments the same is put**, up to the numbers of anonymous slots. -/
theorem erase_mergedTokens_mirror (h : Alignment.Valid xs ys ops)
    (hlast : last.map Token.erase = last'.map Token.erase) (id id' : Nat) :
    (mergedTokens minimal ops xs last id).map Token.erase =
      (mergedTokens minimal (ops.map EditOp.mirror) ys last' id').map Token.erase := by
  induction h generalizing last last' id id' with
  | nil => rfl
  | keep x _ ih => exact erase_mergedTokens_cons hlast rfl fun _ _ h => ih h _ _
  | substitute _ _ ih => exact erase_mergedTokens_cons hlast rfl fun _ _ h => ih h _ _
  | delete x _ ih => exact erase_mergedTokens_cons hlast rfl fun _ _ h => ih h _ _
  | insert y _ ih => exact erase_mergedTokens_cons hlast rfl fun _ _ h => ih h _ _

end Mirror

/-! ## Merges of two templates in either order -/

/-- Two lists have the same members, up to the numbers of anonymous slots. -/
def SameForms (as bs : List Template) : Prop := ∀ t, as.any (· == t) = bs.any (· == t)

variable {as bs cs : List Template} {policy : MergePolicy} {first second merged merged' : Template}

theorem SameForms.symm (h : SameForms as bs) : SameForms bs as := fun t => (h t).symm

theorem SameForms.trans (h : SameForms as bs) (h' : SameForms bs cs) : SameForms as cs :=
  fun t => (h t).trans (h' t)

theorem SameForms.exists_beq {a : Template} (h : SameForms as bs) (ha : a ∈ as) :
    ∃ b ∈ bs, (b == a) = true := by
  have hself : as.any (· == a) = true := List.any_eq_true.2 ⟨a, ha, BEq.rfl⟩
  exact List.any_eq_true.1 (h a ▸ hself)

theorem sameForms_of_exists_beq (has : ∀ a ∈ as, ∃ b ∈ bs, (a == b) = true)
    (hbs : ∀ b ∈ bs, ∃ a ∈ as, (b == a) = true) : SameForms as bs := by
  intro t
  rw [Bool.eq_iff_iff, List.any_eq_true, List.any_eq_true]
  constructor
  · rintro ⟨a, ha, hat⟩
    obtain ⟨b, hb, hab⟩ := has a ha
    exact ⟨b, hb, BEq.trans (BEq.symm hab) hat⟩
  · rintro ⟨b, hb, hbt⟩
    obtain ⟨a, ha, hba⟩ := hbs b hb
    exact ⟨a, ha, BEq.trans (BEq.symm hba) hbt⟩

theorem SameForms.eq_nil_iff (h : SameForms as bs) : as = [] ↔ bs = [] := by
  have hnil {as bs : List Template} (h : SameForms as bs) (has : as = []) : bs = [] := by
    subst has
    apply List.eq_nil_iff_forall_not_mem.2
    intro b hb
    obtain ⟨a, ha, -⟩ := h.symm.exists_beq hb
    cases ha
  exact ⟨hnil h, hnil h.symm⟩

/-- What two lists and two others to fall back on have in common, the lists that are taken have. -/
theorem orElse_of_rel {R : List Template → List Template → Prop} {as' bs' : List Template}
    (hnil : as = [] ↔ bs = []) (h : R as bs) (h' : R as' bs') :
    R (if as = [] then as' else as) (if bs = [] then bs' else bs) := by
  simp only [hnil]
  split
  · exact h'
  · exact h

theorem SameForms.orElse {as' bs' : List Template} (h : SameForms as bs) (h' : SameForms as' bs') :
    SameForms (if as = [] then as' else as) (if bs = [] then bs' else bs) :=
  orElse_of_rel h.eq_nil_iff h h'

/-- Whether a merge is admitted does not depend on the order of the two templates. -/
theorem admitted_swap (h : (merged == merged') = true) :
    admitted policy second first merged' = admitted policy first second merged := by
  have hliterals : merged.literals = merged'.literals := by
    rw [literals_eq_shape, literals_eq_shape, shape_eq_of_beq h]
  rw [admitted, admitted, ← length_eq_of_beq h, hliterals, Bool.or_assoc, Bool.or_assoc,
    Bool.or_comm (decide (merged.length ≤ second.length))]

/-- Every merge of two templates has an equal among those of the exchanged ones. -/
theorem exists_mem_merges_swap {supply : Nat} (hmax : policy.maxAlignments = none)
    (h : merged ∈ (merges policy first second supply).1) (supply' : Nat) :
    ∃ merged' ∈ (merges policy second first supply').1, (merged == merged') = true := by
  obtain ⟨ops, id, hops, rfl⟩ := exists_alignment_of_mem_merges h
  rw [hmax] at hops
  have hvalid := Alignment.valid_of_mem_alignments hops
  have hbeq (id' : Nat) :
      (mergeAlong policy ops first id == mergeAlong policy (ops.map EditOp.mirror) second id') = true :=
    beq_iff.2 (erase_mergedTokens_mirror hvalid rfl id id')
  obtain ⟨id', hmem⟩ := exists_mem_merges (hmax ▸ Alignment.mem_alignments_mirror hops)
    (fun id' => (admitted_swap (hbeq id')).trans (admitted_of_mem_merges h)) supply'
  exact ⟨_, hmem, hbeq id'⟩

theorem sameForms_distinctMerges (policy : MergePolicy) (first second : Template) (supply : Nat) :
    SameForms (distinctMerges policy first second supply).1 (merges policy first second supply).1 :=
  fun t => OrderedSet.contains_ofList _ t

/-- **The merges of two templates are those of the exchanged ones.** -/
theorem sameForms_swap (hmax : policy.maxAlignments = none) (first second : Template)
    (supply supply' : Nat) :
    SameForms (distinctMerges policy first second supply).1
      (distinctMerges policy second first supply').1 := by
  have hmerges : SameForms (merges policy first second supply).1
      (merges policy second first supply').1 :=
    sameForms_of_exists_beq (fun _ h => exists_mem_merges_swap hmax h supply')
      fun _ h => exists_mem_merges_swap hmax h supply
  exact (sameForms_distinctMerges policy first second supply).trans
    (hmerges.trans (sameForms_distinctMerges policy second first supply').symm)

end Template

/-! ## The best merge in either order -/

namespace Learner

open Template

variable {learner : Learner} {distance : Template → Int} {first second merged merged' : Template}
  {supply : Nat}

theorem possibleMerges_eq (learner : Learner) (first second : Template) (supply : Nat) :
    (learner.possibleMerges first second supply).1 =
      let short := distinctMerges (learner.policy false) first second supply
      let long := distinctMerges (learner.policy true) first second short.2
      if short.1 = [] then
        if long.1 = [] then [.ofSlot (.anonymous long.2)] else long.1
      else short.1 := by
  unfold possibleMerges
  split
  next h => simp [h]
  next h =>
    split
    next h' => simp [h, h']
    next h' => simp [h, h']

theorem sameForms_possibleMerges (hmax : learner.maxAlignments = none) (first second : Template)
    (supply supply' : Nat) :
    SameForms (learner.possibleMerges first second supply).1
      (learner.possibleMerges second first supply').1 := by
  have hmerges (allowLonger : Bool) := @sameForms_swap (learner.policy allowLonger) hmax first second
  have hslot (id id' : Nat) : SameForms [.ofSlot (.anonymous id)] [.ofSlot (.anonymous id')] :=
    fun t => congrArg (· || false) (BEq.congr_left (beq_iff.2 rfl))
  simp only [possibleMerges_eq]
  exact (hmerges false _ _).orElse ((hmerges true _ _).orElse (hslot _ _))

theorem distance_bestCandidate_le (h : merged ∈ (learner.possibleMerges first second supply).1) :
    (learner.bestCandidate first second supply).1.distance ≤ distanceOf first second merged := by
  obtain ⟨m, ms, hms⟩ := List.exists_cons_of_ne_nil (List.ne_nil_of_mem h)
  rw [hms] at h
  simp only [bestCandidate, hms]
  exact (nearest_spec _ m ms).2 merged h

theorem exists_distance_bestCandidate_eq (learner : Learner) (first second : Template) (supply : Nat) :
    ∃ merged ∈ (learner.possibleMerges first second supply).1,
      (learner.bestCandidate first second supply).1.distance = distanceOf first second merged :=
  ⟨_, nearest_headD_mem _ (learner.possibleMerges_ne_nil first second supply), rfl⟩

/-- If some merge gives up as much as any merge of two others, the best merge gives up no more than theirs. -/
theorem distance_bestCandidate_le_of_exists {first' second' : Template} {supply' : Nat}
    (h : ∀ m' ∈ (learner.possibleMerges first' second' supply').1,
      ∃ m ∈ (learner.possibleMerges first second supply).1,
        distanceOf first second m = distanceOf first' second' m') :
    (learner.bestCandidate first second supply).1.distance ≤
      (learner.bestCandidate first' second' supply').1.distance := by
  obtain ⟨m', hm', heq⟩ := exists_distance_bestCandidate_eq learner first' second' supply'
  obtain ⟨m, hm, hcost⟩ := h m' hm'
  rw [heq, ← hcost]
  exact distance_bestCandidate_le hm

/-- What a merge gives up does not depend on the order of the two templates. -/
theorem distanceOf_swap (h : (merged == merged') = true) :
    distanceOf first second merged = distanceOf second first merged' := by
  rw [distanceOf, distanceOf, literals_eq_shape merged, length_slots merged, shape_eq_of_beq h,
    ← literals_eq_shape, ← length_slots, max_comm, min_comm]

theorem distance_bestCandidate_swap_le (hmax : learner.maxAlignments = none)
    (first second : Template) (supply supply' : Nat) :
    (learner.bestCandidate first second supply).1.distance ≤
      (learner.bestCandidate second first supply').1.distance := by
  refine distance_bestCandidate_le_of_exists fun m' hm' => ?_
  obtain ⟨m, hm, hbeq⟩ :=
    (sameForms_possibleMerges hmax second first supply' supply).exists_beq hm'
  exact ⟨m, hm, distanceOf_swap hbeq⟩

/-- **Merging is symmetric.** If all optimal alignments are tried, two templates have the same merges in
either order, up to the numbers of anonymous slots, and the best of them has the same distance. -/
theorem merging_symmetric (policy : MergePolicy) (learner : Learner) (first second : Template)
    (supply supply' : Nat) (hpolicy : policy.maxAlignments = none)
    (hlearner : learner.maxAlignments = none) :
    SameForms (distinctMerges policy first second supply).1
      (distinctMerges policy second first supply').1 ∧
    (learner.bestCandidate first second supply).1.distance =
      (learner.bestCandidate second first supply').1.distance :=
  ⟨sameForms_swap hpolicy first second supply supply',
    Int.le_antisymm (distance_bestCandidate_swap_le hlearner first second supply supply')
      (distance_bestCandidate_swap_le hlearner second first supply' supply)⟩

/-- Merging along all optimal alignments. -/
def unlimited : MergePolicy := { maxAlignments := none }

/-- Learning with all optimal alignments. -/
def thorough : Learner := { maxAlignments := none }

theorem merging_symmetric_of_alternating :
    unlimited.maxAlignments = none ∧ thorough.maxAlignments = none ∧
    SameForms
      (distinctMerges unlimited (ofWords ["a", "b", "a", "a"]) (ofWords ["b", "a", "b", "b"]) 0).1
      (distinctMerges unlimited (ofWords ["b", "a", "b", "b"]) (ofWords ["a", "b", "a", "a"]) 8).1 ∧
    (thorough.bestCandidate (ofWords ["a", "b", "a", "a"]) (ofWords ["b", "a", "b", "b"]) 0).1.distance =
      (thorough.bestCandidate (ofWords ["b", "a", "b", "b"])
        (ofWords ["a", "b", "a", "a"]) 8).1.distance :=
  ⟨rfl, rfl, merging_symmetric unlimited thorough _ _ 0 8 rfl rfl⟩

/-- The first optimal alignment alone keeps `a b` in one order and `b a` in the other. -/
example :
    (distinctMerges { maxAlignments := some 1 } (ofWords ["a", "b", "a", "a"])
      (ofWords ["b", "a", "b", "b"]) 0).1.map literals = [["a", "b"]] ∧
    (distinctMerges { maxAlignments := some 1 } (ofWords ["b", "a", "b", "b"])
      (ofWords ["a", "b", "a", "a"]) 0).1.map literals = [["b", "a"]] := by
  decide +kernel

end Learner

end GrammarInduction
