import GrammarInduction.Proofs.Learner.Confinement
import GrammarInduction.Proofs.Learner.Shape

/-!
# Learning comes to an end

Twice the number of templates that may still be merged, and the number of active ones: this
potential falls with every round. A merged template that is new takes two off and adds one active
template at most; a known one adds none, and takes one of the first pair out of the active ones.
Between two rounds the queue gets shorter by the candidates that are dropped.

* `potential_round_lt`: a round on a valid pair takes something off the potential.
* `Turn` and `Runs`: the loop candidate by candidate, with the numbers of batches and of pops.
* `learning_halts`: under `minimalVariables` the loop comes to a halt, whatever the templates are, and
  learning returns what is left then.
-/

namespace GrammarInduction

namespace LearnerState

variable {s : LearnerState} {parent child t : Template} {below : List Template}

/-! ## Numbers of templates after a merge -/

theorem size_children_addChild (hp : s.children.contains parent = true) :
    (addChild parent s child).children.size = s.children.size := by
  unfold addChild
  split
  · rfl
  · rw [← OrderedMap.length_keys, OrderedMap.keys_update, if_pos hp, OrderedMap.length_keys]

theorem size_erase_le (active : OrderedSet Template) (t : Template) :
    (active.erase t).size ≤ active.size := List.length_filter_le _ _

theorem size_erase_lt {active : OrderedSet Template} (h : active.contains t = true) :
    (active.erase t).size < active.size := by
  obtain ⟨u, hu, hut⟩ := OrderedSet.contains_iff.1 h
  exact List.length_filter_lt_length_iff_exists.2 ⟨u, hu, by simp [hut]⟩

theorem size_active_addChild_le : (addChild parent s child).active.size ≤ s.active.size := by
  unfold addChild
  split
  · exact Nat.le_refl _
  · exact size_erase_le s.active child

theorem size_foldl_addChild (below : List Template) (hp : s.children.contains parent = true) :
    (below.foldl (addChild parent) s).children.size = s.children.size ∧
      (below.foldl (addChild parent) s).active.size ≤ s.active.size := by
  induction below generalizing s with
  | nil => exact ⟨rfl, Nat.le_refl _⟩
  | cons t below ih =>
    obtain ⟨hc, ha⟩ := ih (s := addChild parent s t) (by rwa [contains_children_addChild hp])
    rw [size_children_addChild hp] at hc
    exact ⟨hc, ha.trans size_active_addChild_le⟩

/-- An active template under another parent is active no more. -/
theorem size_active_foldl_addChild_lt (ht : t ∈ below) (hne : (t == parent) = false)
    (hp : s.children.contains parent = true) (hactive : s.active.contains t = true) :
    (below.foldl (addChild parent) s).active.size < s.active.size := by
  induction below generalizing s with
  | nil => simp at ht
  | cons u below ih =>
    have hp' : (addChild parent s u).children.contains parent = true := by
      rwa [contains_children_addChild hp]
    have hle : (addChild parent s u).active.size ≤ s.active.size := size_active_addChild_le
    by_cases hu : (addChild parent s u).active.contains t = true
    · rcases List.mem_cons.1 ht with rfl | ht
      · simp [contains_active_addChild, hne] at hu
      · exact (ih ht hp' hu).trans_le hle
    · have hrest := (size_foldl_addChild below hp').2
      have hlt : (addChild parent s u).active.size < s.active.size := by
        rw [contains_active_addChild, hactive] at hu
        simp only [Bool.true_and, Bool.or_eq_true, Bool.not_eq_true', not_or,
          Bool.not_eq_false] at hu
        rw [addChild_of_ne (by simpa using hu.1)]
        exact size_erase_lt ((OrderedSet.contains_congr hu.2).symm.trans hactive)
      exact Nat.lt_of_le_of_lt hrest hlt

theorem withParent_of_merged (h : s.children.contains parent = true) : s.withParent parent = s := by
  simp [withParent, h]

/-- A new merged template is one more, and adds one active template at most. -/
theorem size_withParent_of_new (h : s.children.contains parent = false) :
    (s.withParent parent).children.size = s.children.size + 1 ∧
      (s.withParent parent).active.size ≤ s.active.size + 1 := by
  simp only [withParent, h, Bool.false_eq_true, if_false]
  refine ⟨?_, s.active.size_insert_le parent⟩
  rw [← OrderedMap.length_keys, OrderedMap.keys_insert, h]
  simp [OrderedMap.length_keys]

theorem contains_withParent_self (s : LearnerState) (parent : Template) :
    (s.withParent parent).children.contains parent = true := by
  simp [contains_children_withParent]

/-- Recording a merge does not raise the potential. -/
theorem size_addParent_le (s : LearnerState) (parent : Template) (below : List Template) :
    (s.addParent parent below).active.size + 2 * s.children.size ≤
      s.active.size + 2 * (s.addParent parent below).children.size := by
  rw [addParent_eq]
  obtain ⟨hc, ha⟩ := size_foldl_addChild below (s.contains_withParent_self parent)
  rw [hc]
  cases h : s.children.contains parent with
  | true =>
    rw [withParent_of_merged h] at ha ⊢
    omega
  | false =>
    obtain ⟨hnc, hna⟩ := size_withParent_of_new h
    omega

/-- Recording the merge of two different active templates lowers the potential. -/
theorem size_addParent_lt (parent : Template) {first second : Template}
    (hne : (first == second) = false) (hf : s.active.contains first = true)
    (hs : s.active.contains second = true) :
    (s.addParent parent [first, second]).active.size + 2 * s.children.size <
      s.active.size + 2 * (s.addParent parent [first, second]).children.size := by
  rw [addParent_eq]
  obtain ⟨hc, ha⟩ := size_foldl_addChild [first, second] (s.contains_withParent_self parent)
  rw [hc]
  cases h : s.children.contains parent with
  | true =>
    rw [withParent_of_merged h]
    -- one of the two is not the parent
    have hlt : ([first, second].foldl (addChild parent) s).active.size < s.active.size := by
      by_cases hfp : (first == parent) = true
      · have hsp : (second == parent) = false := by
          rw [BEq.comm, ← BEq.congr_left hfp]
          exact hne
        exact size_active_foldl_addChild_lt (by simp) hsp h hs
      · exact size_active_foldl_addChild_lt (by simp) (by simpa using hfp) h hf
    omega
  | false =>
    obtain ⟨hnc, hna⟩ := size_withParent_of_new h
    omega

end LearnerState

/-! ## The potential -/

namespace Learner

open LearnerState

variable {learner : Learner} {templates inputs : List Template}
  {supply batches batches' pops pops' : Nat} {p q q' : Progress} {top : Candidate}
  {rest : List Candidate}

/-- What is left to do, at most. -/
def potential (inputs : List Template) (s : LearnerState) : Nat :=
  s.active.size + 2 * (mergeBound inputs - s.children.size)

theorem size_mergeBatch_le (learner : Learner) (cs : List Candidate) (s : LearnerState)
    (merged : OrderedSet Template) (supply : Nat) :
    (learner.mergeBatch cs s merged supply).1.active.size + 2 * s.children.size ≤
      s.active.size + 2 * (learner.mergeBatch cs s merged supply).1.children.size := by
  induction cs generalizing s merged supply with
  | nil => exact Nat.le_refl _
  | cons c cs ih =>
    have hstep := s.size_addParent_le (learner.mergeOf c supply).1 [c.first, c.second]
    have hrest := ih (s.addParent (learner.mergeOf c supply).1 [c.first, c.second])
      (merged.insert (learner.mergeOf c supply).1) (learner.mergeOf c supply).2
    rw [mergeBatch_cons]
    omega

/-- **Every round on a valid pair lowers the potential.** -/
theorem potential_round_lt {inputs : List Template} (hp : p.Confined learner inputs)
    (hround : (learner.round p top rest).Confined learner inputs) (hqueue : top ∈ p.queue)
    (htop : p.state.isValid top = true) :
    potential inputs (learner.round p top rest).state < potential inputs p.state := by
  obtain ⟨hf, hs⟩ := isValid_iff.1 htop
  have hfirst := size_addParent_lt (learner.mergeOf top p.supply).1 (hp.queue top hqueue).1 hf hs
  have hothers := size_mergeBatch_le learner
    ((rest.takeWhile (learner.goes p top)).filter p.state.isValid)
    (p.state.addParent (learner.mergeOf top p.supply).1 [top.first, top.second])
    (OrderedSet.empty.insert (learner.mergeOf top p.supply).1) (learner.mergeOf top p.supply).2
  have hbefore := hp.state.size_children_le
  have hafter := hround.state.size_children_le
  rw [state_round] at hafter ⊢
  rw [batch, mergeBatch_cons] at hafter ⊢
  simp only [potential]
  omega

theorem potential_start_le (learner : Learner) (templates : List Template) (supply : Nat) :
    potential templates (learner.start templates supply).state ≤ roundBound templates := by
  have := OrderedSet.size_ofList_le templates
  simp only [potential, start, ofTemplates, roundBound, mergeBound, totalLength, OrderedMap.size,
    OrderedMap.entries_empty, List.length_nil, Nat.sub_zero, Nat.pow_eq] at *
  omega

/-! ## The loop, candidate by candidate -/

/-- One turn of the loop, with the number of batches and the number of candidates that are popped: a
candidate that is not valid is dropped; a valid one is popped with all that go with it. -/
inductive Turn (learner : Learner) (p : Progress) : Nat → Nat → Progress → Prop
  | stale {c : Candidate} {rest : List Candidate} : p.state.isUnfinished = true →
      p.queue = c :: rest → p.state.isValid c = false → Turn learner p 0 1 { p with queue := rest }
  | batch {c : Candidate} {rest : List Candidate} : p.state.isUnfinished = true →
      p.queue = c :: rest → p.state.isValid c = true →
        Turn learner p 1 (1 + (rest.takeWhile (learner.goes p c)).length) (learner.round p c rest)

/-- The loop stops here: one template is active at most, or the queue is empty. -/
def Progress.Halted (p : Progress) : Prop := p.state.isUnfinished = false ∨ p.queue = []

theorem Turn.not_halted (h : learner.Turn p batches pops q) : ¬ p.Halted := by
  rintro (hf | hempty)
  · cases h with
    | stale hf' => simp [hf] at hf'
    | batch hf' => simp [hf] at hf'
  · cases h with
    | stale _ hqueue => simp [hempty] at hqueue
    | batch _ hqueue => simp [hempty] at hqueue

theorem halted_or_turn (learner : Learner) (p : Progress) :
    p.Halted ∨ ∃ batches pops q, learner.Turn p batches pops q := by
  cases hf : p.state.isUnfinished with
  | false => exact .inl (.inl hf)
  | true =>
    cases hqueue : p.queue with
    | nil => exact .inl (.inr hqueue)
    | cons c rest =>
      cases hvalid : p.state.isValid c with
      | false => exact .inr ⟨_, _, _, .stale hf hqueue hvalid⟩
      | true => exact .inr ⟨_, _, _, .batch hf hqueue hvalid⟩

theorem Turn.deterministic (h : learner.Turn p batches pops q) (h' : learner.Turn p batches' pops' q') :
    batches = batches' ∧ pops = pops' ∧ q = q' := by
  cases h with
  | stale _ hqueue hvalid =>
    cases h' with
    | stale _ hqueue' =>
      obtain ⟨rfl, rfl⟩ := List.cons.inj (hqueue.symm.trans hqueue')
      exact ⟨rfl, rfl, rfl⟩
    | batch _ hqueue' hvalid' =>
      obtain ⟨rfl, rfl⟩ := List.cons.inj (hqueue.symm.trans hqueue')
      simp [hvalid] at hvalid'
  | batch _ hqueue hvalid =>
    cases h' with
    | stale _ hqueue' hvalid' =>
      obtain ⟨rfl, rfl⟩ := List.cons.inj (hqueue.symm.trans hqueue')
      simp [hvalid] at hvalid'
    | batch _ hqueue' =>
      obtain ⟨rfl, rfl⟩ := List.cons.inj (hqueue.symm.trans hqueue')
      exact ⟨rfl, rfl, rfl⟩

/-- **Every turn goes down**: a batch takes something off the potential, and a candidate that is dropped
makes the queue shorter and leaves the potential as it is. -/
theorem Progress.Confined.turn (h : p.Confined learner inputs) (hmin : learner.minimalVariables = true)
    (ht : learner.Turn p batches pops q) :
    q.Confined learner inputs ∧ batches + potential inputs q.state ≤ potential inputs p.state ∧
      Prod.Lex (· < ·) (· < ·) (potential inputs q.state, q.queue.length)
        (potential inputs p.state, p.queue.length) := by
  cases ht with
  | stale _ hqueue _ =>
    refine ⟨⟨h.state, fun d hd => h.queue d (hqueue ▸ .tail _ hd)⟩, Nat.le_of_eq (Nat.zero_add _), ?_⟩
    exact .right _ (by simp [hqueue])
  | batch _ hqueue hvalid =>
    have hround := h.round hmin (fun d hd => hqueue ▸ hd) hvalid
    have hlt := potential_round_lt h hround (hqueue ▸ List.mem_cons_self) hvalid
    exact ⟨hround, by omega, .left _ _ hlt⟩

/-- Turns one after the other, with the batches and the pops of all of them. -/
inductive Runs (learner : Learner) : Progress → Nat → Nat → Progress → Prop
  | done (p : Progress) : Runs learner p 0 0 p
  | turn {p p' q : Progress} {batches pops batches' pops' : Nat} :
      learner.Turn p batches pops p' → Runs learner p' batches' pops' q →
        Runs learner p (batches + batches') (pops + pops') q

/-- **No run goes further than one that has halted.** -/
theorem Runs.le_of_halted (h : learner.Runs p batches pops q) (hq : q.Halted)
    (h' : learner.Runs p batches' pops' q') : batches' ≤ batches ∧ pops' ≤ pops := by
  induction h generalizing batches' pops' with
  | done p =>
    cases h' with
    | done => exact ⟨Nat.le_refl _, Nat.le_refl _⟩
    | turn ht _ => exact absurd hq ht.not_halted
  | turn ht _ ih =>
    cases h' with
    | done => exact ⟨Nat.zero_le _, Nat.zero_le _⟩
    | turn ht' hruns =>
      obtain ⟨rfl, rfl, rfl⟩ := ht.deterministic ht'
      obtain ⟨hbatches, hpops⟩ := ih hq hruns
      exact ⟨Nat.add_le_add_left hbatches _, Nat.add_le_add_left hpops _⟩

/-- **The loop comes to a halt**, after no more batches than the potential. -/
theorem Progress.Confined.exists_halted {p : Progress} (h : p.Confined learner inputs)
    (hmin : learner.minimalVariables = true) :
    ∃ batches pops q, learner.Runs p batches pops q ∧ q.Halted ∧
      batches ≤ potential inputs p.state := by
  rcases halted_or_turn learner p with hp | ⟨first, popped, p', ht⟩
  · exact ⟨0, 0, p, .done p, hp, Nat.zero_le _⟩
  · obtain ⟨hp', hpotential, hless⟩ := h.turn hmin ht
    obtain ⟨batches, pops, q, hruns, hq, hle⟩ := hp'.exists_halted hmin
    exact ⟨first + batches, popped + pops, q, .turn ht hruns, hq, by omega⟩
termination_by (potential inputs p.state, p.queue.length)
decreasing_by exact hless

/-! ## Rounds and runs -/

/-- What a run has come to where the loop stops. -/
def Progress.ending (p : Progress) : Except Failure Progress :=
  if p.state.isUnfinished then .error (.queueExhausted p.state.active.size) else .ok p

theorem run_of_halted (h : p.Halted) (rounds : Nat) : learner.run rounds p = p.ending := by
  cases hf : p.state.isUnfinished with
  | false => simp [run_of_finished hf, Progress.ending, hf]
  | true =>
    have hempty : p.queue = [] := h.resolve_left (by simp [hf])
    simp [run_of_live_nil hf (by simp [Progress.live, hempty]), Progress.ending, hf]

theorem live_of_valid (hqueue : p.queue = top :: rest) (hvalid : p.state.isValid top = true) :
    p.live = top :: rest := by
  rw [Progress.live, hqueue, List.dropWhile_cons_of_neg (by simp [hvalid])]

theorem live_of_stale (hqueue : p.queue = top :: rest) (hvalid : p.state.isValid top = false) :
    p.live = Progress.live { p with queue := rest } := by
  rw [Progress.live, hqueue, List.dropWhile_cons_of_pos (by simp [hvalid]), Progress.live]

/-- A candidate that is not valid does not matter to the rounds. -/
theorem run_of_stale (hf : p.state.isUnfinished = true) (hqueue : p.queue = top :: rest)
    (hvalid : p.state.isValid top = false) (rounds : Nat) :
    learner.run rounds p = learner.run rounds { p with queue := rest } := by
  set p' : Progress := { p with queue := rest }
  have hlive : p'.live = p.live := (live_of_stale hqueue hvalid).symm
  have hf' : p'.state.isUnfinished = true := hf
  cases hl : p.live with
  | nil => rw [run_of_live_nil hf hl, run_of_live_nil hf' (hlive.trans hl)]
  | cons c left =>
    cases rounds with
    | zero => rw [run_zero_of_live hf hl, run_zero_of_live hf' (hlive.trans hl)]
    | succ rounds =>
      rw [run_succ_of_live hf hl, run_succ_of_live hf' (hlive.trans hl)]
      rfl

/-- Rounds come to where the loop stops, if there are as many as batches. -/
theorem Runs.run_eq (h : learner.Runs p batches pops q) (hq : q.Halted) {rounds : Nat}
    (hrounds : batches ≤ rounds) : learner.run rounds p = q.ending := by
  induction h generalizing rounds with
  | done p => exact run_of_halted hq rounds
  | turn ht _ ih =>
    cases ht with
    | stale hf hqueue hvalid => rw [run_of_stale hf hqueue hvalid, ih hq (by omega)]
    | batch hf hqueue hvalid =>
      obtain ⟨left, rfl⟩ := Nat.exists_eq_add_of_le' (Nat.le_trans (Nat.le_add_right 1 _) hrounds)
      rw [run_succ_of_live hf (live_of_valid hqueue hvalid), ih hq (by omega)]

/-- As many rounds as the potential says are enough. -/
theorem run_ne_roundsExhausted (hmin : learner.minimalVariables = true)
    (hinputs : ∀ u ∈ templates, u.IsPlain) (hp : learner.Visits templates supply p) {rounds : Nat}
    (hrounds : potential templates p.state ≤ rounds) :
    learner.run rounds p ≠ .error .roundsExhausted := by
  obtain ⟨batches, pops, q, hruns, hq, hle⟩ :=
    (sound_of_visits hmin hinputs hp).confined.exists_halted hmin
  rw [hruns.run_eq hq (hle.trans hrounds), Progress.ending]
  split <;> simp

/-- What learning returns where the loop has stopped. -/
def Progress.result (q : Progress) (arena : Arena) : Except Failure ((Arena × Nat) × Nat) := do
  let q ← q.ending
  return (← q.state.buildTree arena, q.supply)

/-- **Learning terminates.** Under `minimalVariables` the loop halts after finitely many batches and pops,
on templates with or without slots, and no run of it has more of either. Learning returns the tree of the
one template that is active there, or an error. -/
theorem learning_halts (learner : Learner) (hmin : learner.minimalVariables = true) (arena : Arena)
    (templates : List Template) (supply : Nat) :
    ∃ batches pops q, learner.Runs (learner.start templates supply) batches pops q ∧ q.Halted ∧
      batches ≤ roundBound templates ∧
      (∀ batches' pops' q', learner.Runs (learner.start templates supply) batches' pops' q' →
        batches' ≤ batches ∧ pops' ≤ pops) ∧
      learner.learn arena templates supply =
        if templates.isEmpty then .error .emptyCorpus else q.result arena := by
  obtain ⟨batches, pops, q, hruns, hq, hle⟩ :=
    (confined_start learner templates supply).exists_halted hmin
  have hbound := hle.trans (potential_start_le learner templates supply)
  refine ⟨batches, pops, q, hruns, hq, hbound, fun _ _ _ h => hruns.le_of_halted hq h, ?_⟩
  by_cases hne : templates = []
  · simp [learn, hne]
  · rw [learn_eq learner arena hne, hruns.run_eq hq hbound, if_neg (by simpa using hne)]
    rfl

/-- Lines with a named slot and with two anonymous slots side by side. -/
def slottedLines : List Template :=
  [⟨[.slot (.anonymous 0), .slot (.anonymous 1), .literal "a"]⟩, ⟨[.slot (.named "x"), .literal "a"]⟩,
    .ofWords ["b", "a"], .ofWords ["b"]]

theorem learning_halts_of_slottedLines :
    ({} : Learner).minimalVariables = true ∧
      ∃ batches pops q, ({} : Learner).Runs (({} : Learner).start slottedLines 2) batches pops q ∧
        q.Halted ∧ batches ≤ roundBound slottedLines ∧
        ({} : Learner).learn .empty slottedLines 2 = q.result .empty := by
  obtain ⟨batches, pops, q, hruns, hq, hbound, -, hlearn⟩ :=
    learning_halts {} rfl .empty slottedLines 2
  exact ⟨rfl, batches, pops, q, hruns, hq, hbound, hlearn⟩

end Learner

end GrammarInduction
