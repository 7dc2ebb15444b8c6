import GrammarInduction.Learner
import GrammarInduction.Proofs.Learner.Invariant
import Mathlib.Data.List.TakeWhile

/-!
# Rounds of learning

Every candidate that is ever queued is *proper*: its two templates differ, and the merge it carries
is one of their possible merges. A round on a sound state with a proper queue leads to such a state
and queue again (`Progress.Sound.round`), so that all progress that learning can make is sound.

* `Visits learner templates supply p` says that learning comes to `p`; it is the loop of
  `Learner.run` without its bound (`visits_of_run`).
* `sound_of_visits`: all that is visited is sound.
-/

namespace GrammarInduction

namespace Learner

variable {learner : Learner} {c : Candidate} {supply : Nat}
  {inputs templates active : List Template}

/-! ## Proper candidates -/

/-- The templates differ, and the merge is a possible one. -/
def Proper (learner : Learner) (c : Candidate) : Prop :=
  (c.first == c.second) = false ∧
    ∀ m, c.merged = some m → ∃ supply, m ∈ (learner.possibleMerges c.first c.second supply).1

theorem headD_mem_possibleMerges (learner : Learner) (first second : Template) (supply : Nat) :
    (learner.possibleMerges first second supply).1.headD .empty ∈
      (learner.possibleMerges first second supply).1 := by
  obtain ⟨m, ms, h⟩ := List.exists_cons_of_ne_nil
    (learner.possibleMerges_ne_nil first second supply)
  simp [h]

/-- The nearest template is one of the list, and no template of the list is less distant. -/
theorem nearest_spec (distance : Template → Int) (best : Template) (ms : List Template) :
    nearest distance best ms ∈ best :: ms ∧
      ∀ m ∈ best :: ms, distance (nearest distance best ms) ≤ distance m := by
  induction ms generalizing best with
  | nil => simp [nearest]
  | cons m ms ih =>
    rw [nearest]
    by_cases hd : distance m < distance best
    · rw [if_pos hd]
      obtain ⟨hmem, hm⟩ := ih m
      have hbest := Int.le_trans (hm m List.mem_cons_self) (Int.le_of_lt hd)
      exact ⟨.tail _ hmem, List.forall_mem_cons.2 ⟨hbest, hm⟩⟩
    · rw [if_neg hd]
      obtain ⟨hmem, hle⟩ := ih best
      obtain ⟨hbest, hms⟩ := List.forall_mem_cons.1 hle
      have hm := Int.le_trans hbest (Int.not_lt.1 hd)
      refine ⟨?_, List.forall_mem_cons.2 ⟨hbest, List.forall_mem_cons.2 ⟨hm, hms⟩⟩⟩
      exact List.mem_cons.2 ((List.mem_cons.1 hmem).imp_right (.tail _))

theorem nearest_headD_mem (distance : Template → Int) {ms : List Template} (h : ms ≠ []) :
    nearest distance (ms.headD .empty) ms.tail ∈ ms := by
  obtain ⟨m, ms, rfl⟩ := List.exists_cons_of_ne_nil h
  exact (nearest_spec distance m ms).1

theorem proper_bestCandidate {first second : Template} (h : (first == second) = false)
    (supply : Nat) : learner.Proper (learner.bestCandidate first second supply).1 := by
  refine ⟨h, fun m hm => ⟨supply, ?_⟩⟩
  obtain rfl := Option.some.inj hm
  exact nearest_headD_mem _ (learner.possibleMerges_ne_nil first second supply)

theorem proper_firstCandidate {first second : Template} (h : (first == second) = false)
    (supply : Nat) : learner.Proper (learner.firstCandidate first second supply).1 := by
  refine ⟨h, fun m hm => ⟨supply, ?_⟩⟩
  obtain rfl := Option.some.inj hm
  exact headD_mem_possibleMerges learner first second supply

/-- The merge of a proper candidate is a possible one. -/
theorem Proper.mergeOf_mem (h : learner.Proper c) (supply : Nat) :
    ∃ supply', (learner.mergeOf c supply).1 ∈
      (learner.possibleMerges c.first c.second supply').1 := by
  cases hm : c.merged with
  | some m =>
    obtain ⟨supply', hmem⟩ := h.2 m hm
    exact ⟨supply', by simpa [mergeOf, hm] using hmem⟩
  | none =>
    refine ⟨supply, ?_⟩
    simpa [mergeOf, hm, firstMerge] using
      headD_mem_possibleMerges learner c.first c.second supply

/-! ### Initial candidates -/

/-- A partner that is new has its distance with it. -/
theorem mem_partners_consider {template other : Template} {closest : Closest} {q : Int × Template}
    (h : q ∈ (learner.consider template closest other).partners) :
    q ∈ closest.partners ∨
      (q = (learner.distance template other, other) ∧ (other == template) = false) := by
  simp only [consider] at h
  split at h
  · exact .inl h
  next hne =>
    have hnew : (other == template) = false := by simpa using hne
    have hcloser : q ∈ (learner.distance template other, other) ::
          closest.partners.filter
            (fun p => learner.isWithinWindow (learner.distance template other) p.1) →
        q ∈ closest.partners ∨
          (q = (learner.distance template other, other) ∧ (other == template) = false) := by
      intro hq
      rcases List.mem_cons.1 hq with rfl | hq
      · exact .inr ⟨rfl, hnew⟩
      · exact .inl (List.mem_filter.1 hq).1
    split at h
    · split at h
      · split at h
        · rcases List.mem_append.1 h with h | h
          · exact .inl h
          · exact .inr ⟨List.mem_singleton.1 h, hnew⟩
        · exact .inl h
      · exact hcloser h
    · exact hcloser h

theorem mem_partners_foldl_consider {template : Template} {rest : List Template} {closest : Closest}
    {q : Int × Template} (h : q ∈ (rest.foldl (learner.consider template) closest).partners) :
    q ∈ closest.partners ∨ (q.2 ∈ rest ∧ q.1 = learner.distance template q.2 ∧
      (q.2 == template) = false) := by
  induction rest generalizing closest with
  | nil => exact .inl h
  | cons other rest ih =>
    rcases ih h with h | ⟨hmem, hq⟩
    · rcases mem_partners_consider h with h | ⟨rfl, hne⟩
      · exact .inl h
      · exact .inr ⟨List.mem_cons_self, rfl, hne⟩
    · exact .inr ⟨.tail _ hmem, hq⟩

/-- An initial candidate has the distance of its templates, and its merge is left to be found. -/
theorem eq_of_mem_initialCandidates (h : c ∈ learner.initialCandidates templates) :
    c.distance = learner.distance c.first c.second ∧ c.merged = none ∧
      (c.first == c.second) = false := by
  induction templates with
  | nil => simp [initialCandidates] at h
  | cons template rest ih =>
    rcases List.mem_append.1 h with h | h
    · obtain ⟨q, hq, rfl⟩ := List.mem_map.1 h
      rcases mem_partners_foldl_consider hq with hq | ⟨-, hdist, hne⟩
      · simp at hq
      · rw [BEq.comm] at hne
        exact ⟨hdist, rfl, hne⟩
    · exact ih h

theorem proper_of_mem_initialCandidates (h : c ∈ learner.initialCandidates templates) :
    learner.Proper c := by
  obtain ⟨-, hnone, hne⟩ := eq_of_mem_initialCandidates h
  exact ⟨hne, fun m hm => by simp [hnone] at hm⟩

/-! ### Later candidates -/

theorem mem_candidatesWith {template : Template} {others : List Template}
    (h : c ∈ (learner.candidatesWith template others supply).1) :
    c.first = template ∧ c.second ∈ others ∧
      ((∀ t ∈ others, (t == template) = false) → learner.Proper c) := by
  induction others generalizing supply with
  | nil => simp [candidatesWith] at h
  | cons other rest ih =>
    simp only [candidatesWith] at h
    rcases List.mem_cons.1 h with rfl | h
    · have hne : (∀ t ∈ other :: rest, (t == template) = false) → (template == other) = false :=
        fun hall => by
          rw [BEq.comm]
          exact hall other List.mem_cons_self
      split
      · exact ⟨rfl, List.mem_cons_self, fun hall => proper_bestCandidate (hne hall) supply⟩
      · exact ⟨rfl, List.mem_cons_self, fun hall => proper_firstCandidate (hne hall) supply⟩
    · obtain ⟨hf, hs, hp⟩ := ih h
      exact ⟨hf, .tail _ hs, fun hall => hp fun t ht => hall t (.tail _ ht)⟩

theorem exists_of_mem_laterCandidates
    (h : c ∈ (learner.laterCandidates active templates supply).1) :
    ∃ template others supply', c ∈ (learner.candidatesWith template others supply').1 ∧
      ∀ t ∈ others, (t == template) = false := by
  induction templates generalizing supply with
  | nil => simp [laterCandidates] at h
  | cons template rest ih =>
    simp only [laterCandidates] at h
    rcases List.mem_append.1 h with h | h
    · refine ⟨template, _, supply, (List.mem_filter.1 h).1, fun t ht => ?_⟩
      simpa using (List.mem_filter.1 ht).2
    · exact ih h

theorem proper_of_mem_laterCandidates
    (h : c ∈ (learner.laterCandidates active templates supply).1) : learner.Proper c := by
  obtain ⟨_, _, _, h, hne⟩ := exists_of_mem_laterCandidates h
  exact (mem_candidatesWith h).2.2 hne

/-! ## One round -/

/-- A sound state, and a queue of proper candidates. -/
structure Progress.Sound (learner : Learner) (inputs : List Template) (p : Progress) : Prop where
  state : p.state.Sound inputs
  queue : ∀ c ∈ p.queue, learner.Proper c

variable {s : LearnerState} {merged : OrderedSet Template} {cs : List Candidate} {p : Progress}
  {top : Candidate} {rest : List Candidate}

theorem isValid_iff : s.isValid c = true ↔
    s.active.contains c.first = true ∧ s.active.contains c.second = true := by
  rw [LearnerState.isValid, Bool.and_eq_true]

/-- The merge of a proper candidate of known templates keeps a state sound. -/
theorem sound_addParent_mergeOf (hmin : learner.minimalVariables = true)
    (hinputs : ∀ u ∈ inputs, u.IsPlain) (hs : s.Sound inputs) (hc : learner.Proper c)
    (hknown : ∀ t ∈ [c.first, c.second], s.Known inputs t) (supply : Nat) :
    (s.addParent (learner.mergeOf c supply).1 [c.first, c.second]).Sound inputs := by
  obtain ⟨supply', hmem⟩ := hc.mergeOf_mem supply
  obtain ⟨hf, hsec⟩ := covers_of_mem_possibleMerges hmem
  have hfirst := hs.plain_of_known hinputs (hknown c.first (by simp))
  exact hs.addParent (isPlain_of_mem_possibleMerges hmin hfirst hmem)
    (Template.hasSlots_of_covers hf hsec hc.1) (by simp [hf, hsec]) hknown hc.1

theorem mergeBatch_cons (learner : Learner) (c : Candidate) (cs : List Candidate) (s : LearnerState)
    (merged : OrderedSet Template) (supply : Nat) :
    learner.mergeBatch (c :: cs) s merged supply =
      learner.mergeBatch cs (s.addParent (learner.mergeOf c supply).1 [c.first, c.second])
        (merged.insert (learner.mergeOf c supply).1) (learner.mergeOf c supply).2 := rfl

/-- What every merge of a proper candidate of known templates keeps, merging a batch of them keeps. -/
theorem mergeBatch_induct {I : LearnerState → Prop}
    (hI : ∀ s c supply, I s → learner.Proper c → (∀ t ∈ [c.first, c.second], s.Known inputs t) →
      I (s.addParent (learner.mergeOf c supply).1 [c.first, c.second]))
    (hs : I s) (hcs : ∀ c ∈ cs, learner.Proper c)
    (hknown : ∀ c ∈ cs, ∀ t ∈ [c.first, c.second], s.Known inputs t) :
    I (learner.mergeBatch cs s merged supply).1 := by
  induction cs generalizing s merged supply with
  | nil => exact hs
  | cons c cs ih =>
    refine ih ?_ (fun d hd => hcs d (.tail _ hd)) fun d hd t ht => ?_
    · exact hI s c supply hs (hcs c List.mem_cons_self) (hknown c List.mem_cons_self)
    · exact LearnerState.known_addParent.2 (.inl (hknown d (.tail _ hd) t ht))

/-- What is merged in a round is queued and, if the first candidate is valid, active. -/
theorem mem_batch (h : c ∈ learner.batch p top rest) :
    c ∈ top :: rest ∧ (p.state.isValid top = true → p.state.isValid c = true) := by
  rcases List.mem_cons.1 h with rfl | h
  · exact ⟨List.mem_cons_self, id⟩
  · obtain ⟨hc, hvalid⟩ := List.mem_filter.1 h
    exact ⟨.tail _ (List.takeWhile_sublist _ |>.subset hc), fun _ => hvalid⟩

theorem mem_enqueueAll {queue : List Candidate} :
    c ∈ Candidate.enqueueAll queue cs ↔ c ∈ cs ∨ c ∈ queue := by
  induction cs generalizing queue with
  | nil => simp [Candidate.enqueueAll]
  | cons d cs ih =>
    rw [Candidate.enqueueAll, List.foldl_cons, ← Candidate.enqueueAll, ih, Candidate.mem_enqueue,
      List.mem_cons]
    tauto

theorem state_round (learner : Learner) (p : Progress) (top : Candidate) (rest : List Candidate) :
    (learner.round p top rest).state =
      (learner.mergeBatch (learner.batch p top rest) p.state .empty p.supply).1 := rfl

/-- **A round on valid candidates** keeps what their merges keep. -/
theorem state_round_induct {I : LearnerState → Prop}
    (hI : ∀ s c supply, I s → learner.Proper c → (∀ t ∈ [c.first, c.second], s.Known inputs t) →
      I (s.addParent (learner.mergeOf c supply).1 [c.first, c.second]))
    (hs : I p.state) (hactive : ∀ t, p.state.active.contains t = true → p.state.Known inputs t)
    (hproper : ∀ c ∈ p.queue, learner.Proper c) (hqueue : ∀ c ∈ top :: rest, c ∈ p.queue)
    (htop : p.state.isValid top = true) : I (learner.round p top rest).state := by
  rw [state_round]
  refine mergeBatch_induct hI hs (fun c hc => hproper c (hqueue c (mem_batch hc).1)) fun c hc => ?_
  obtain ⟨hf, hs⟩ := isValid_iff.1 ((mem_batch hc).2 htop)
  exact List.forall_mem_cons.2 ⟨hactive _ hf, List.forall_mem_singleton.2 (hactive _ hs)⟩

/-- What is queued after a round is a later candidate, or was queued before. -/
theorem mem_queue_round (hc : c ∈ (learner.round p top rest).queue) :
    (∃ active new supply, c ∈ (learner.laterCandidates active new supply).1) ∨ c ∈ rest :=
  (mem_enqueueAll.1 hc).imp (fun hc => ⟨_, _, _, hc⟩) (List.dropWhile_sublist _ |>.subset ·)

theorem proper_of_mem_queue_round (hproper : ∀ c ∈ p.queue, learner.Proper c)
    (hqueue : ∀ c ∈ top :: rest, c ∈ p.queue) (hc : c ∈ (learner.round p top rest).queue) :
    learner.Proper c := by
  rcases mem_queue_round hc with ⟨_, _, _, hc⟩ | hc
  · exact proper_of_mem_laterCandidates hc
  · exact hproper c (hqueue c (.tail _ hc))

/-- So it keeps progress sound. -/
theorem Progress.Sound.round (h : p.Sound learner inputs) (hmin : learner.minimalVariables = true)
    (hinputs : ∀ u ∈ inputs, u.IsPlain) (hqueue : ∀ c ∈ top :: rest, c ∈ p.queue)
    (htop : p.state.isValid top = true) : (learner.round p top rest).Sound learner inputs where
  state := state_round_induct
    (fun _ _ supply hs hc hknown => sound_addParent_mergeOf hmin hinputs hs hc hknown supply)
    h.state h.state.active h.queue hqueue htop
  queue _ := proper_of_mem_queue_round h.queue hqueue

/-! ## Runs -/

/-- Where learning begins. -/
def start (learner : Learner) (templates : List Template) (supply : Nat) : Progress :=
  let state := LearnerState.ofTemplates templates
  ⟨state, Candidate.enqueueAll [] (learner.initialCandidates state.active.toList), true, supply⟩

/-- The candidates from the first valid one on. -/
def Progress.live (p : Progress) : List Candidate := p.queue.dropWhile fun c => !p.state.isValid c

/-- Learning from templates comes to a point between two rounds. -/
inductive Visits (learner : Learner) (templates : List Template) (supply : Nat) : Progress → Prop
  | start : Visits learner templates supply (learner.start templates supply)
  | round {p : Progress} {top : Candidate} {rest : List Candidate} :
      Visits learner templates supply p → p.state.isUnfinished = true → p.live = top :: rest →
        Visits learner templates supply (learner.round p top rest)

theorem live_eq_cons (h : p.live = top :: rest) :
    (∀ c ∈ top :: rest, c ∈ p.queue) ∧ p.state.isValid top = true := by
  refine ⟨fun c hc => List.dropWhile_sublist _ |>.subset (h ▸ hc), ?_⟩
  have := List.head?_dropWhile_not (fun c => !p.state.isValid c) p.queue
  rw [Progress.live] at h
  simpa [h] using this

theorem live_eq_nil_iff : p.live = [] ↔ ∀ c ∈ p.queue, p.state.isValid c = false := by
  simp [Progress.live, List.dropWhile_eq_nil_iff]

theorem sound_start (learner : Learner) (templates : List Template) (supply : Nat) :
    (learner.start templates supply).Sound learner templates where
  state := LearnerState.sound_ofTemplates templates
  queue c hc := by
    rcases mem_enqueueAll.1 hc with hc | hc
    · exact proper_of_mem_initialCandidates hc
    · simp at hc

/-- **All that learning comes to is sound.** -/
theorem sound_of_visits (hmin : learner.minimalVariables = true)
    (hinputs : ∀ u ∈ templates, u.IsPlain) (h : learner.Visits templates supply p) :
    p.Sound learner templates := by
  induction h with
  | start => exact sound_start learner templates supply
  | round _ _ hlive ih =>
    obtain ⟨hqueue, htop⟩ := live_eq_cons hlive
    exact ih.round hmin hinputs hqueue htop

theorem run_of_finished (h : p.state.isUnfinished = false) (rounds : Nat) :
    learner.run rounds p = .ok p := by
  cases rounds <;> simp [run, h]

theorem run_of_live_nil (h : p.state.isUnfinished = true) (hl : p.live = []) (rounds : Nat) :
    learner.run rounds p = .error (.queueExhausted p.state.active.size) := by
  rw [Progress.live] at hl
  cases rounds <;> simp [run, h, hl]

theorem run_succ_of_live (h : p.state.isUnfinished = true) (hl : p.live = top :: rest)
    (rounds : Nat) :
    learner.run (rounds + 1) p = learner.run rounds (learner.round p top rest) := by
  rw [Progress.live] at hl
  rw [run]
  simp only [h, hl, if_true]

theorem run_zero_of_live (h : p.state.isUnfinished = true) (hl : p.live = top :: rest) :
    learner.run 0 p = .error .roundsExhausted := by
  rw [Progress.live] at hl
  rw [run]
  simp only [h, hl, if_true]

/-- A run ends at a point that learning comes to. One template is active there at most, or the queue
holds no valid candidate and the run fails; or else the run fails for want of rounds. -/
theorem run_cases {p : Progress} (hp : learner.Visits templates supply p) (rounds : Nat) :
    (∃ q, learner.Visits templates supply q ∧ q.state.isUnfinished = false ∧
        learner.run rounds p = .ok q) ∨
      (∃ q, learner.Visits templates supply q ∧ q.state.isUnfinished = true ∧ q.live = [] ∧
        learner.run rounds p = .error (.queueExhausted q.state.active.size)) ∨
      learner.run rounds p = .error .roundsExhausted := by
  cases hf : p.state.isUnfinished with
  | false => exact .inl ⟨p, hp, hf, run_of_finished hf rounds⟩
  | true =>
    cases hl : p.live with
    | nil => exact .inr (.inl ⟨p, hp, hf, hl, run_of_live_nil hf hl rounds⟩)
    | cons top rest =>
      cases rounds with
      | zero => exact .inr (.inr (run_zero_of_live hf hl))
      | succ rounds =>
        rw [run_succ_of_live hf hl]
        exact run_cases (hp.round hf hl) rounds

/-- A run that succeeds ends where one template is active at most, at a point that learning comes
to. -/
theorem visits_of_run {q : Progress} {rounds : Nat} (hp : learner.Visits templates supply p)
    (h : learner.run rounds p = .ok q) :
    learner.Visits templates supply q ∧ q.state.isUnfinished = false := by
  rcases run_cases hp rounds with ⟨q', hvisits, hf, hrun⟩ | ⟨q', -, -, -, hrun⟩ | hrun
  · obtain rfl : q' = q := Except.ok.inj (hrun.symm.trans h)
    exact ⟨hvisits, hf⟩
  · cases hrun.symm.trans h
  · cases hrun.symm.trans h

end Learner

end GrammarInduction
