import GrammarInduction.Proofs.Learner.Shape
import GrammarInduction.Proofs.Learner.Termination

/-!
# When learning fails

Apart from its limit on rounds, learning from lines can fail in one way: several templates are
active, and the queue holds no pair of active templates any more.

* `learns_iff`: learning succeeds exactly if every point that it comes to has one active template or
  a valid candidate in the queue. With `minimalVariables` this is the only failure.
* `exists_valid_of_round`: a round that leaves the templates it merges into active queues a valid
  candidate. So what it takes to fail is a merge into a template that is known and active no more.
* `exhausted_at_known_parent`: seven lines on which that happens.
-/

namespace GrammarInduction

namespace Learner

open LearnerState

variable {learner : Learner} {arena : Arena} {templates inputs active merged : List Template}
  {supply rounds : Nat} {p q : Progress} {top : Candidate} {rest : List Candidate}

/-! ## Runs that fail -/

/-- A run fails for want of rounds, or where the queue holds no valid candidate. -/
theorem run_error_cases {e : Failure} (hp : learner.Visits templates supply p)
    (h : learner.run rounds p = .error e) :
    e = .roundsExhausted ∨ ∃ q, learner.Visits templates supply q ∧
      q.state.isUnfinished = true ∧ q.live = [] ∧ e = .queueExhausted q.state.active.size := by
  rcases run_cases hp rounds with ⟨q, -, -, hrun⟩ | ⟨q, hvisits, hf, hl, hrun⟩ | hrun
  · cases hrun.symm.trans h
  · exact .inr ⟨q, hvisits, hf, hl, Except.error.inj (h.symm.trans hrun)⟩
  · exact .inl (Except.error.inj (h.symm.trans hrun))

/-- A run that succeeds goes on successfully from every point that learning comes to. -/
theorem exists_run_of_visits (hp : learner.Visits templates supply p)
    (h : learner.run rounds (learner.start templates supply) = .ok q) :
    ∃ left, learner.run left p = .ok q := by
  induction hp with
  | start => exact ⟨rounds, h⟩
  | round _ hf hl ih =>
    obtain ⟨left, hleft⟩ := ih
    cases left with
    | zero => simp [run_zero_of_live hf hl] at hleft
    | succ left => exact ⟨left, by rwa [← run_succ_of_live hf hl]⟩

theorem exists_valid_iff_live :
    (∃ c ∈ p.queue, p.state.isValid c = true) ↔ p.live ≠ [] := by
  rw [Ne, live_eq_nil_iff]
  simp

theorem isUnfinished_iff {s : LearnerState} : s.isUnfinished = true ↔ 1 < s.active.size := by
  simp [isUnfinished]

/-- A tree is built where exactly one template is active. -/
theorem buildTree_of_size (s : LearnerState) (arena : Arena) :
    (s.active.size = 1 ∧ ∃ tree, s.buildTree arena = .ok tree) ∨
      (s.active.size ≠ 1 ∧ s.buildTree arena = .error (.rootNotUnique s.active.size)) := by
  rcases hl : s.active.toList with _ | ⟨t, _ | ⟨u, ts⟩⟩
  · exact .inr (by simp [buildTree, OrderedSet.only?, OrderedSet.size, hl])
  · exact .inl (by simp [buildTree, OrderedSet.only?, OrderedSet.size, hl])
  · exact .inr (by simp [buildTree, OrderedSet.only?, OrderedSet.size, hl])

/-- Learning succeeds if and only if its run ends with one active template. -/
theorem learn_eq_ok_iff (hne : templates ≠ []) :
    (∃ result, learner.learn arena templates supply = .ok result) ↔
      ∃ q, learner.run (roundBound templates) (learner.start templates supply) = .ok q ∧
        q.state.active.size = 1 := by
  rw [learn_eq learner arena hne]
  cases hrun : learner.run (roundBound templates) (learner.start templates supply) with
  | error e => simp [bind, Except.bind]
  | ok q =>
    rcases buildTree_of_size q.state arena with ⟨hsize, tree, hb⟩ | ⟨hsize, hb⟩
    · simp [bind, Except.bind, pure, Except.pure, hb, hsize]
    · simp [bind, Except.bind, hb, hsize]

/-- The failures of learning are those of its run, and a last state without a single root. -/
theorem learn_error_cases {e : Failure} (hne : templates ≠ [])
    (h : learner.learn arena templates supply = .error e) :
    learner.run (roundBound templates) (learner.start templates supply) = .error e ∨
      ∃ q, learner.run (roundBound templates) (learner.start templates supply) = .ok q ∧
        q.state.active.size ≠ 1 ∧ e = .rootNotUnique q.state.active.size := by
  rw [learn_eq learner arena hne] at h
  cases hrun : learner.run (roundBound templates) (learner.start templates supply) with
  | error e' =>
    simp only [hrun, bind, Except.bind] at h
    exact .inl (congrArg Except.error (Except.error.inj h))
  | ok q =>
    rcases buildTree_of_size q.state arena with ⟨hsize, tree, hb⟩ | ⟨hsize, hb⟩
    · simp [hrun, hb, bind, Except.bind, pure, Except.pure] at h
    · simp only [hrun, hb, bind, Except.bind] at h
      exact .inr ⟨q, rfl, hsize, (Except.error.inj h).symm⟩

/-- Some template is active in a sound state. -/
theorem Progress.Sound.active_pos (h : p.Sound learner inputs) (hinputs : ∀ u ∈ inputs, u.IsPlain)
    (hne : inputs ≠ []) : 0 < p.state.active.size := by
  obtain ⟨u, us, rfl⟩ := List.exists_cons_of_ne_nil hne
  obtain ⟨r, hr, -⟩ := h.state.exists_active_above hinputs
    (.inl ⟨u, List.mem_cons_self, BEq.rfl⟩ : p.state.Known (u :: us) u)
  obtain ⟨t, ht, -⟩ := OrderedSet.contains_iff.1 hr
  exact List.length_pos_of_mem ht

/-! ## Rounds that queue a valid candidate -/

theorem leastDistant_ne_nil {cs : List Candidate} (h : cs ≠ []) : leastDistant cs ≠ [] := by
  obtain ⟨c, hc, hleast⟩ : ∃ c ∈ cs, ∀ d ∈ cs, c.distance ≤ d.distance := by
    induction cs with
    | nil => exact absurd rfl h
    | cons c cs ih =>
      by_cases hnil : cs = []
      · exact ⟨c, List.mem_cons_self, by simp [hnil]⟩
      · obtain ⟨m, hm, hleast⟩ := ih hnil
        rcases Int.le_total c.distance m.distance with hle | hle
        · refine ⟨c, List.mem_cons_self, List.forall_mem_cons.2 ⟨Int.le_refl _, fun d hd => ?_⟩⟩
          exact Int.le_trans hle (hleast d hd)
        · exact ⟨m, .tail _ hm, List.forall_mem_cons.2 ⟨hle, hleast⟩⟩
  refine List.ne_nil_of_mem (List.mem_filter.2 ⟨hc, ?_⟩)
  simpa using hleast

theorem candidatesWith_ne_nil {template : Template} {others : List Template} (h : others ≠ [])
    (supply : Nat) : (learner.candidatesWith template others supply).1 ≠ [] := by
  obtain ⟨other, others, rfl⟩ := List.exists_cons_of_ne_nil h
  simp [candidatesWith]

/-- Another active template than a given one. -/
theorem exists_active_ne {s : LearnerState} (h : 1 < s.active.size) (t : Template) :
    ∃ u ∈ s.active.toList, (u == t) = false := by
  rcases hl : s.active.toList with _ | ⟨u, _ | ⟨v, vs⟩⟩
  · simp [OrderedSet.size, hl] at h
  · simp [OrderedSet.size, hl] at h
  · have hdistinct := s.active.distinct
    rw [hl, List.pairwise_cons] at hdistinct
    have huv := hdistinct.1 v List.mem_cons_self
    by_cases hu : (u == t) = true
    · refine ⟨v, by simp, ?_⟩
      rw [← BEq.congr_right hu, BEq.comm]
      exact huv
    · exact ⟨u, by simp, by simpa using hu⟩

/-- New templates that are all active are queued with active partners. -/
theorem exists_valid_laterCandidates {s : LearnerState} (hsize : 1 < s.active.size)
    (hne : merged ≠ []) (hactive : ∀ m ∈ merged, s.active.contains m = true) (supply : Nat) :
    ∃ c ∈ (learner.laterCandidates s.active.toList merged supply).1, s.isValid c = true := by
  obtain ⟨m, rest, rfl⟩ := List.exists_cons_of_ne_nil hne
  set others := ((OrderedSet.ofList (rest ++ s.active.toList)).filter fun t => !(t == m)).toList
    with hothers
  obtain ⟨u, hu, hum⟩ := exists_active_ne hsize m
  have hothers_ne : others ≠ [] := by
    have hcont : (OrderedSet.ofList (rest ++ s.active.toList)).contains u = true := by
      rw [OrderedSet.contains_ofList, List.any_eq_true]
      exact ⟨u, List.mem_append_right _ hu, BEq.rfl⟩
    obtain ⟨v, hv, hvu⟩ := OrderedSet.contains_iff.1 hcont
    refine List.ne_nil_of_mem (List.mem_filter.2 ⟨hv, ?_⟩)
    rw [BEq.congr_left hvu, hum]
    rfl
  obtain ⟨c, hc⟩ := List.exists_mem_of_ne_nil _ 
    (leastDistant_ne_nil (candidatesWith_ne_nil hothers_ne supply))
  refine ⟨c, by simp only [laterCandidates]; exact List.mem_append_left _ hc, ?_⟩
  obtain ⟨hfirst, hsecond, -⟩ := mem_candidatesWith (List.mem_filter.1 hc).1
  have hmem := OrderedSet.mem_of_mem_ofList (List.mem_filter.1 hsecond).1
  rw [isValid_iff, hfirst]
  refine ⟨hactive m List.mem_cons_self, ?_⟩
  rcases List.mem_append.1 hmem with hmem | hmem
  · exact hactive _ (.tail _ hmem)
  · exact OrderedSet.contains_of_mem hmem

/-- The templates that a round merges candidates into. -/
def mergedIn (learner : Learner) (p : Progress) (top : Candidate) (rest : List Candidate) :
    List Template :=
  (learner.mergeBatch (learner.batch p top rest) p.state .empty p.supply).2.1.toList

theorem mem_mergeBatch_of_mem {cs : List Candidate} {s : LearnerState} {m : Template}
    {into : OrderedSet Template} (h : m ∈ into.toList) :
    m ∈ (learner.mergeBatch cs s into supply).2.1.toList := by
  induction cs generalizing s into supply with
  | nil => exact h
  | cons c cs ih => exact ih (OrderedSet.mem_insert_of_mem h)

theorem mergedIn_ne_nil (learner : Learner) (p : Progress) (top : Candidate)
    (rest : List Candidate) : learner.mergedIn p top rest ≠ [] := by
  rw [mergedIn, batch, mergeBatch_cons]
  refine List.ne_nil_of_mem (a := (learner.mergeOf top p.supply).1) (mem_mergeBatch_of_mem ?_)
  rw [OrderedSet.toList_insert_of_not_contains (OrderedSet.contains_empty _)]
  exact List.mem_append_right _ (List.mem_singleton_self _)

/-- **A round that leaves the templates it merges into active queues a valid candidate**, if it
leaves several templates active. -/
theorem exists_valid_of_round (hsize : 1 < (learner.round p top rest).state.active.size)
    (hactive : ∀ m ∈ learner.mergedIn p top rest,
      (learner.round p top rest).state.active.contains m = true) :
    ∃ c ∈ (learner.round p top rest).queue, (learner.round p top rest).state.isValid c = true := by
  obtain ⟨c, hc, hvalid⟩ := exists_valid_laterCandidates hsize
    (mergedIn_ne_nil learner p top rest) hactive
    (learner.mergeBatch (learner.batch p top rest) p.state .empty p.supply).2.2
  exact ⟨c, mem_enqueueAll.2 (.inl hc), hvalid⟩

/-! ### The first queue -/

theorem partners_consider_ne_nil {template other : Template} {closest : Closest}
    (h : closest.partners ≠ []) : (learner.consider template closest other).partners ≠ [] := by
  simp only [consider]
  split
  · exact h
  · split
    · split
      · split
        · simp
        · exact h
      · simp
    · simp

theorem partners_foldl_consider_ne_nil {template : Template} {rest : List Template}
    {closest : Closest} (h : closest.partners ≠ []) :
    (rest.foldl (learner.consider template) closest).partners ≠ [] := by
  induction rest generalizing closest with
  | nil => exact h
  | cons other rest ih => exact ih (partners_consider_ne_nil h)

/-- The first queue holds a valid candidate if several templates are active. -/
theorem exists_valid_start (hsize : 1 < (learner.start templates supply).state.active.size) :
    ∃ c ∈ (learner.start templates supply).queue,
      (learner.start templates supply).state.isValid c = true := by
  set s := (learner.start templates supply).state with hs
  rcases hl : s.active.toList with _ | ⟨t, _ | ⟨u, ts⟩⟩
  · simp [OrderedSet.size, hl] at hsize
  · simp [OrderedSet.size, hl] at hsize
  · have hut : (u == t) = false := by
      have hdistinct := s.active.distinct
      rw [hl, List.pairwise_cons] at hdistinct
      rw [BEq.comm]
      exact hdistinct.1 u List.mem_cons_self
    have hpartners : ((u :: ts).foldl (learner.consider t) ⟨none, []⟩).partners ≠ [] := by
      have hclosest : (learner.consider t ⟨none, []⟩ u).partners ≠ [] := by simp [consider, hut]
      rw [List.foldl_cons]
      exact partners_foldl_consider_ne_nil hclosest
    obtain ⟨q, hq⟩ := List.exists_mem_of_ne_nil _ hpartners
    refine ⟨⟨t, q.2, q.1, none⟩, mem_enqueueAll.2 (.inl ?_), isValid_iff.2 ⟨?_, ?_⟩⟩
    · change _ ∈ learner.initialCandidates s.active.toList
      rw [hl]
      exact List.mem_append_left _ (List.mem_map.2 ⟨q, hq, rfl⟩)
    · exact OrderedSet.contains_of_mem (by simp [hl])
    · rcases mem_partners_foldl_consider hq with hq | ⟨hq, -⟩
      · simp at hq
      · exact OrderedSet.contains_of_mem (by rw [hl]; exact .tail _ hq)

/-! ## Success and failure -/

/-- Every point that learning comes to has one active template or a valid candidate. -/
def NeverStuck (learner : Learner) (templates : List Template) (supply : Nat) : Prop :=
  ∀ p, learner.Visits templates supply p →
    p.state.active.size = 1 ∨ ∃ c ∈ p.queue, p.state.isValid c = true

/-- Every round leaves the templates it merges into active. -/
def MergesStayActive (learner : Learner) (templates : List Template) (supply : Nat) : Prop :=
  ∀ p top rest, learner.Visits templates supply p → p.state.isUnfinished = true →
    p.live = top :: rest → ∀ m ∈ learner.mergedIn p top rest,
      (learner.round p top rest).state.active.contains m = true

theorem NeverStuck.run_ok (h : learner.NeverStuck templates supply)
    (hrun : learner.run rounds (learner.start templates supply) ≠ .error .roundsExhausted) :
    ∃ q, learner.run rounds (learner.start templates supply) = .ok q ∧ q.state.active.size = 1 := by
  cases hr : learner.run rounds (learner.start templates supply) with
  | error e =>
    rcases run_error_cases .start hr with rfl | ⟨q, hq, hf, hl, -⟩
    · exact absurd hr hrun
    · rcases h q hq with hone | hvalid
      · simp [isUnfinished_iff, hone] at hf
      · exact absurd hl (exists_valid_iff_live.1 hvalid)
  | ok q =>
    obtain ⟨hq, hf⟩ := visits_of_run .start hr
    refine ⟨q, rfl, ?_⟩
    rcases h q hq with hone | ⟨c, -, hvalid⟩
    · exact hone
    · obtain ⟨t, ht, -⟩ := OrderedSet.contains_iff.1 (isValid_iff.1 hvalid).1
      have hpos : 0 < q.state.active.size := List.length_pos_of_mem ht
      have hle : ¬ 1 < q.state.active.size := fun hlt => by simp [isUnfinished_iff.2 hlt] at hf
      omega

theorem neverStuck_of_run_ok (h : learner.run rounds (learner.start templates supply) = .ok q)
    (hsize : q.state.active.size = 1) : learner.NeverStuck templates supply := by
  intro p hp
  obtain ⟨left, hleft⟩ := exists_run_of_visits hp h
  by_cases hf : p.state.isUnfinished = true
  · refine .inr (exists_valid_iff_live.2 fun hl => ?_)
    simp [run_of_live_nil hf hl] at hleft
  · rw [Bool.not_eq_true] at hf
    obtain rfl : p = q := by simpa [run_of_finished hf] using hleft
    exact .inl hsize

/-- Where merges stay active, a valid candidate is always queued. -/
theorem MergesStayActive.neverStuck (h : learner.MergesStayActive templates supply)
    (hpos : ∀ p, learner.Visits templates supply p → 0 < p.state.active.size) :
    learner.NeverStuck templates supply := by
  intro p hp
  have := hpos p hp
  by_cases hone : p.state.active.size = 1
  · exact .inl hone
  · right
    cases hp with
    | start => exact exists_valid_start (by omega)
    | round hp hf hl => exact exists_valid_of_round (by omega) (h _ _ _ hp hf hl)

/-- Learning that comes to an end succeeds exactly if it is never stuck. -/
theorem exists_learn_eq_ok_iff (arena : Arena) (hne : templates ≠ [])
    (hrounds : learner.learn arena templates supply ≠ .error .roundsExhausted) :
    (∃ result, learner.learn arena templates supply = .ok result) ↔
      learner.NeverStuck templates supply := by
  rw [learn_eq_ok_iff hne]
  refine ⟨fun ⟨q, hq, hsize⟩ => neverStuck_of_run_ok hq hsize, fun h => h.run_ok fun hrun => ?_⟩
  rw [learn_eq learner arena hne, hrun] at hrounds
  exact hrounds rfl

/-- With `minimalVariables`, templates without slots leave something active all the time. -/
theorem active_pos_of_visits (hmin : learner.minimalVariables = true) (hne : templates ≠ [])
    (hslots : ∀ t ∈ templates, t.hasSlots = false) (hp : learner.Visits templates supply p) :
    0 < p.state.active.size :=
  (sound_of_visits hmin (isPlain_of_inputs hslots) hp).active_pos (isPlain_of_inputs hslots) hne

/-- With `minimalVariables`, learning fails for no other reason than an exhausted queue. -/
theorem exists_queueExhausted_of_learn (arena : Arena) (hmin : learner.minimalVariables = true)
    (hne : templates ≠ []) (hslots : ∀ t ∈ templates, t.hasSlots = false) {e : Failure}
    (he : learner.learn arena templates supply = .error e) :
    ∃ active, 1 < active ∧ e = .queueExhausted active := by
  rcases learn_error_cases hne he with he | ⟨q, hq, hsize, -⟩
  · rcases run_error_cases .start he with rfl | ⟨q, -, hf, -, rfl⟩
    · exact absurd he (run_ne_roundsExhausted hmin (isPlain_of_inputs hslots) .start
        (potential_start_le learner templates supply))
    · exact ⟨_, isUnfinished_iff.1 hf, rfl⟩
  · obtain ⟨hq, hf⟩ := visits_of_run .start hq
    have := active_pos_of_visits hmin hne hslots hq
    have hle : ¬ 1 < q.state.active.size := fun hlt => by simp [isUnfinished_iff.2 hlt] at hf
    omega

/-- **When learning succeeds.** Learning from templates without slots comes to an end if
`minimalVariables` is set. Where it comes to an end, it succeeds exactly if every point on the way
has one active template or a valid candidate in the queue; with `minimalVariables` there is no other
failure than such an exhausted queue, and none where every round leaves the templates it merges into
active. -/
theorem learns_iff (learner : Learner) (arena : Arena) (hne : templates ≠ [])
    (hslots : ∀ t ∈ templates, t.hasSlots = false) (supply : Nat) :
    (learner.learn arena templates supply ≠ .error .roundsExhausted →
      ((∃ result, learner.learn arena templates supply = .ok result) ↔
        learner.NeverStuck templates supply)) ∧
      (learner.minimalVariables = true →
        ((∃ result, learner.learn arena templates supply = .ok result) ↔
          learner.NeverStuck templates supply) ∧
        (∀ e, learner.learn arena templates supply = .error e →
          ∃ active, 1 < active ∧ e = .queueExhausted active) ∧
        (learner.MergesStayActive templates supply →
          ∃ result, learner.learn arena templates supply = .ok result)) := by
  refine ⟨exists_learn_eq_ok_iff arena hne, fun hmin => ?_⟩
  have herror (e : Failure) (he : learner.learn arena templates supply = .error e) :=
    exists_queueExhausted_of_learn arena hmin hne hslots he
  have hlearn : learner.learn arena templates supply ≠ .error .roundsExhausted := by
    intro h
    obtain ⟨active, -, he⟩ := herror _ h
    cases he
  have hiff := exists_learn_eq_ok_iff arena hne hlearn
  exact ⟨hiff, herror, fun h =>
    hiff.2 (h.neverStuck fun p hp => active_pos_of_visits hmin hne hslots hp)⟩

/-- Lines of which two pairs of the same distance lead to the same parent: the second pair comes
when the parent is merged already and not active any more. -/
def sevenLines : List Template :=
  [.ofWords ["x", "1"], .ofWords ["x", "2"], .ofWords ["y", "3"], .ofWords ["y", "4"],
    .ofWords ["x", "5", "6", "7"], .ofWords ["x", "8", "9", "10"],
    .ofWords ["q", "r", "s", "t", "u", "v", "w"]]

/-- What success and failure come to on the seven lines. -/
theorem learns_iff_of_seven_lines :
    sevenLines ≠ [] ∧ (∀ t ∈ sevenLines, t.hasSlots = false) ∧
      ((∃ result, ({} : Learner).learn .empty sevenLines 0 = .ok result) ↔
        ({} : Learner).NeverStuck sevenLines 0) := by
  have hne : sevenLines ≠ [] := by simp [sevenLines]
  have hslots : ∀ t ∈ sevenLines, t.hasSlots = false := by decide
  exact ⟨hne, hslots, ((learns_iff {} .empty hne hslots 0).2 rfl).1⟩

/-- **Learning can fail**: on seven lines two templates are left active and no pair is queued. -/
theorem exhausted_at_known_parent :
    ({} : Learner).learn .empty sevenLines 0 = .error (.queueExhausted 2) := by
  have h : (match ({} : Learner).learn .empty sevenLines 0 with
      | .ok _ => none
      | .error e => some e) = some (.queueExhausted 2) := by decide +kernel
  cases hlearn : ({} : Learner).learn .empty sevenLines 0 with
  | ok result => simp [hlearn] at h
  | error e =>
    rw [hlearn] at h
    rw [Option.some.inj h]

end Learner

end GrammarInduction
