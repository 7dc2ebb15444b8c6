import GrammarInduction.Proofs.Learner.Symmetry
import Mathlib.Order.Bounds.Basic

/-!
# What merges cost against their ranks

The queue goes by the distances of candidates, and a distance is what the best merge of two templates gives
up, whatever fresh slots there are (`distance_bestCandidate`). A candidate for a merged template carries that
merge with it. An initial candidate carries none: its merge is left to be found, and what is found then is
the first merge of its templates, not the best one.

* `Ranked` says what the distance of a candidate stands for; it holds of all that is ever queued
  (`ranked_of_visits`).
* `merges_cost_ranks`: no merge that is recorded costs less than its rank, and those that cost more are
  first merges that are not best ones.
* `first_merge_costs_more`: two lines for which this happens.
-/

namespace GrammarInduction

/-! ## Fresh slots do not matter -/

namespace Template

variable {as bs : List Template} {s t : OrderedSet Template} {a b first second : Template}
  {policy : MergePolicy}

/-- What an alignment puts is the same for other fresh slots: it is what the mirrored one puts. -/
theorem form_mergeAlong {ops : List EditOp} (h : Alignment.Valid first.tokens second.tokens ops)
    (id id' : Nat) : (mergeAlong policy ops first id).form = (mergeAlong policy ops first id').form :=
  (erase_mergedTokens_mirror h rfl id id).trans (erase_mergedTokens_mirror h rfl id' id).symm

theorem admitted_congr (h : (a == b) = true) :
    admitted policy first second a = admitted policy first second b :=
  (admitted_swap h).symm.trans (admitted_swap BEq.rfl)

/-- Lists of the same forms have the same forms left after a test of forms. -/
theorem form_filter_map {ι : Type u} {items : List ι} {f g : ι → Template} {p : Template → Bool}
    (hp : ∀ a b, (a == b) = true → p a = p b) (hfg : ∀ x ∈ items, (f x).form = (g x).form) :
    ((items.map f).filter p).map form = ((items.map g).filter p).map form := by
  have hfilter : items.filter (p ∘ f) = items.filter (p ∘ g) :=
    List.filter_congr fun x hx => hp _ _ (beq_iff.2 (hfg x hx))
  rw [List.filter_map, List.filter_map, List.map_map, List.map_map, hfilter]
  exact List.map_congr_left fun x hx => hfg x (List.mem_filter.1 hx).1

theorem form_merges (policy : MergePolicy) (first second : Template) (supply supply' : Nat) :
    (merges policy first second supply).1.map form =
      (merges policy first second supply').1.map form :=
  form_filter_map (fun _ _ => admitted_congr) fun _ hw =>
    form_mergeAlong (Alignment.valid_of_mem_alignments (List.fst_mem_of_mem_zipIdx hw)) _ _

theorem contains_eq_form (s : OrderedSet Template) (a : Template) :
    s.contains a = (s.toList.map form).contains a.form := by
  rw [Bool.eq_iff_iff, OrderedSet.contains_iff, List.contains_iff_mem, List.mem_map]
  simp only [beq_iff]

theorem form_insertAll (hst : s.toList.map form = t.toList.map form)
    (h : as.map form = bs.map form) :
    (s.insertAll as).toList.map form = (t.insertAll bs).toList.map form := by
  induction as generalizing bs s t with
  | nil =>
    obtain rfl : bs = [] := by simpa using h.symm
    exact hst
  | cons a as ih =>
    obtain ⟨b, bs, rfl⟩ := List.exists_cons_of_length_eq_add_one
      (by simpa using (congrArg List.length h).symm)
    obtain ⟨hab, h⟩ := List.cons.inj h
    refine ih (s := s.insert a) (t := t.insert b) ?_ h
    have hcontains : s.contains a = t.contains b := by
      rw [contains_eq_form, contains_eq_form, hst, hab]
    cases hb : t.contains b with
    | true =>
      rw [OrderedSet.insert_of_contains hb, OrderedSet.insert_of_contains (hcontains.trans hb), hst]
    | false =>
      rw [OrderedSet.toList_insert_of_not_contains hb,
        OrderedSet.toList_insert_of_not_contains (hcontains.trans hb), List.map_append,
        List.map_append, hst, List.map_singleton, List.map_singleton, hab]

theorem form_distinctMerges (policy : MergePolicy) (first second : Template) (supply supply' : Nat) :
    (distinctMerges policy first second supply).1.map form =
      (distinctMerges policy first second supply').1.map form :=
  form_insertAll rfl (form_merges policy first second supply supply')

/-- Lists of the same forms are empty together. -/
theorem eq_nil_iff_of_form (h : as.map form = bs.map form) : as = [] ↔ bs = [] := by
  rw [← List.map_eq_nil_iff (f := form), h, List.map_eq_nil_iff]

end Template

namespace Learner

open Template

variable {learner : Learner} {first second merged merged' : Template} {templates : List Template}
  {supply : Nat} {c top : Candidate} {cs rest : List Candidate} {p : Progress}
  {a : Candidate × Template}

/-- **The possible merges of two templates are the same for other fresh slots.** -/
theorem form_possibleMerges (learner : Learner) (first second : Template) (supply supply' : Nat) :
    (learner.possibleMerges first second supply).1.map form =
      (learner.possibleMerges first second supply').1.map form := by
  have hshort := form_distinctMerges (learner.policy false) first second supply supply'
  have hlong := form_distinctMerges (learner.policy true) first second
    (distinctMerges (learner.policy false) first second supply).2
    (distinctMerges (learner.policy false) first second supply').2
  simp only [possibleMerges_eq]
  exact orElse_of_rel (R := fun as bs => as.map form = bs.map form) (eq_nil_iff_of_form hshort) hshort
    (orElse_of_rel (R := fun as bs => as.map form = bs.map form) (eq_nil_iff_of_form hlong) hlong rfl)

theorem distanceOf_congr (h : (merged == merged') = true) :
    distanceOf first second merged = distanceOf first second merged' :=
  (distanceOf_swap h).trans (distanceOf_swap BEq.rfl)

theorem distance_bestCandidate_le_of_supply (first second : Template) (supply supply' : Nat) :
    (learner.bestCandidate first second supply).1.distance ≤
      (learner.bestCandidate first second supply').1.distance := by
  refine distance_bestCandidate_le_of_exists fun m' hm' => ?_
  have hform : m'.form ∈ (learner.possibleMerges first second supply).1.map form := by
    rw [learner.form_possibleMerges first second supply supply']
    exact List.mem_map_of_mem hm'
  obtain ⟨m, hm, hform⟩ := List.mem_map.1 hform
  exact ⟨m, hm, distanceOf_congr (beq_iff.2 hform)⟩

theorem distance_bestCandidate (learner : Learner) (first second : Template) (supply : Nat) :
    (learner.bestCandidate first second supply).1.distance = learner.distance first second :=
  Int.le_antisymm (distance_bestCandidate_le_of_supply first second supply 0)
    (distance_bestCandidate_le_of_supply first second 0 supply)

/-- What the possible merges of two templates give up. -/
def losses (learner : Learner) (first second : Template) : Set Int :=
  {d | ∃ supply, ∃ m ∈ (learner.possibleMerges first second supply).1, distanceOf first second m = d}

/-- **The distance of two templates is the least that any merge of them gives up.** -/
theorem isLeast_distance (learner : Learner) (first second : Template) :
    IsLeast (learner.losses first second) (learner.distance first second) := by
  constructor
  · obtain ⟨m, hm, heq⟩ := exists_distance_bestCandidate_eq learner first second 0
    exact ⟨0, m, hm, heq.symm⟩
  · rintro _ ⟨supply, m, hm, rfl⟩
    rw [← distance_bestCandidate learner first second supply]
    exact distance_bestCandidate_le hm

theorem form_firstMerge (learner : Learner) (first second : Template) (supply supply' : Nat) :
    (learner.firstMerge first second supply).1.form =
      (learner.firstMerge first second supply').1.form := by
  have hhead (ms : List Template) : (ms.headD .empty).form = (ms.map form).headD Template.empty.form := by
    cases ms <;> rfl
  simp only [firstMerge, hhead, learner.form_possibleMerges first second supply supply']

/-! ## Ranks -/

/-- The first merge of two templates gives up no more than any other. -/
def FirstIsNearest (learner : Learner) (first second : Template) : Prop :=
  distanceOf first second (learner.firstMerge first second 0).1 = learner.distance first second

instance (learner : Learner) (first second : Template) :
    Decidable (learner.FirstIsNearest first second) :=
  inferInstanceAs (Decidable (_ = _))

/-- The distance of a candidate is that of its templates and what the merge it carries gives up; without
a merge it is an initial one. -/
structure Ranked (learner : Learner) (templates : List Template) (c : Candidate) : Prop where
  distance : c.distance = learner.distance c.first c.second
  merged : ∀ m, c.merged = some m → distanceOf c.first c.second m = c.distance
  initial : c.merged = none →
    c ∈ learner.initialCandidates (LearnerState.ofTemplates templates).active.toList

theorem ranked_of_mem_initialCandidates
    (h : c ∈ learner.initialCandidates (LearnerState.ofTemplates templates).active.toList) :
    learner.Ranked templates c := by
  obtain ⟨hdist, hnone, -⟩ := eq_of_mem_initialCandidates h
  exact ⟨hdist, fun m hm => by simp [hnone] at hm, fun _ => h⟩

theorem ranked_bestCandidate (learner : Learner) (first second : Template) (supply : Nat) :
    learner.Ranked templates (learner.bestCandidate first second supply).1 where
  distance := learner.distance_bestCandidate first second supply
  merged _ hm := congrArg (distanceOf first second) (Option.some.inj hm).symm
  initial h := nomatch h

theorem ranked_of_mem_candidatesWith (hbest : learner.judgeByBest = true) {template : Template}
    {others : List Template} (h : c ∈ (learner.candidatesWith template others supply).1) :
    learner.Ranked templates c := by
  induction others generalizing supply with
  | nil => simp [candidatesWith] at h
  | cons other others ih =>
    simp only [candidatesWith, hbest, if_true] at h
    rcases List.mem_cons.1 h with rfl | h
    · exact learner.ranked_bestCandidate template other supply
    · exact ih h

/-- **All candidates that are ever queued are ranked** by their best merges. -/
theorem ranked_of_visits (hbest : learner.judgeByBest = true) (hp : learner.Visits templates supply p) :
    ∀ c ∈ p.queue, learner.Ranked templates c := by
  induction hp with
  | start =>
    intro c hc
    rcases mem_enqueueAll.1 hc with hc | hc
    · exact ranked_of_mem_initialCandidates hc
    · simp at hc
  | round _ _ hl ih =>
    intro c hc
    rcases mem_queue_round hc with ⟨_, _, _, hc⟩ | hc
    · obtain ⟨_, _, _, hc, -⟩ := exists_of_mem_laterCandidates hc
      exact ranked_of_mem_candidatesWith hbest hc
    · exact ih c ((live_eq_cons hl).1 c (.tail _ hc))

/-- The merge that a ranked candidate stands for costs its rank, if it carries one or the first merge is a
nearest one. -/
theorem Ranked.distanceOf_mergeOf_iff (h : learner.Ranked templates c) (supply : Nat) :
    distanceOf c.first c.second (learner.mergeOf c supply).1 = c.distance ↔
      c.merged ≠ none ∨ learner.FirstIsNearest c.first c.second := by
  cases hm : c.merged with
  | some m => simp [mergeOf, hm, h.merged m hm]
  | none =>
    have hfirst : distanceOf c.first c.second (learner.firstMerge c.first c.second supply).1 =
        distanceOf c.first c.second (learner.firstMerge c.first c.second 0).1 :=
      distanceOf_congr (beq_iff.2 (learner.form_firstMerge c.first c.second supply 0))
    simp [mergeOf, hm, h.distance, FirstIsNearest, hfirst]

/-- It never costs less. -/
theorem Ranked.le_distanceOf_mergeOf (h : learner.Ranked templates c) (supply : Nat) :
    c.distance ≤ distanceOf c.first c.second (learner.mergeOf c supply).1 := by
  cases hm : c.merged with
  | some m => simp [mergeOf, hm, h.merged m hm]
  | none =>
    simp only [mergeOf, hm, h.distance]
    exact (learner.isLeast_distance c.first c.second).2
      ⟨supply, _, headD_mem_possibleMerges learner c.first c.second supply, rfl⟩

/-! ## Merges that are recorded -/

/-- Candidates that are merged one after the other, each with the merge that is recorded for it. -/
def applied (learner : Learner) : List Candidate → Nat → List (Candidate × Template)
  | [], _ => []
  | c :: cs, supply =>
    let (m, supply) := learner.mergeOf c supply
    (c, m) :: applied learner cs supply

/-- Records the merge of a candidate. -/
def record (s : LearnerState) (a : Candidate × Template) : LearnerState :=
  s.addParent a.2 [a.1.first, a.1.second]

theorem mergeBatch_eq_foldl_record (learner : Learner) (cs : List Candidate) (s : LearnerState)
    (merged : OrderedSet Template) (supply : Nat) :
    (learner.mergeBatch cs s merged supply).1 = (learner.applied cs supply).foldl record s := by
  induction cs generalizing s merged supply with
  | nil => rfl
  | cons c cs ih => exact ih _ _ _

theorem mem_applied (h : a ∈ learner.applied cs supply) :
    a.1 ∈ cs ∧ ∃ supply', a.2 = (learner.mergeOf a.1 supply').1 := by
  induction cs generalizing supply with
  | nil => cases h
  | cons c cs ih =>
    rcases List.mem_cons.1 h with rfl | h
    · exact ⟨List.mem_cons_self, supply, rfl⟩
    · exact ⟨.tail _ (ih h).1, (ih h).2⟩

/-- **What recorded merges cost.** If pairs are judged by their best merges, then in every round of
learning the distance a candidate is queued by is the least that any merge of its templates gives up, and
the merge that is recorded for it gives up no less. It gives up just as much if the candidate carries its
merge or the first merge is a nearest one, and more if not; a candidate without a merge is an initial
one. -/
theorem merges_cost_ranks (hbest : learner.judgeByBest = true)
    (hp : learner.Visits templates supply p) (hl : p.live = top :: rest) :
    (learner.round p top rest).state =
        (learner.applied (learner.batch p top rest) p.supply).foldl record p.state ∧
      ∀ a ∈ learner.applied (learner.batch p top rest) p.supply,
        IsLeast (learner.losses a.1.first a.1.second) a.1.distance ∧
        a.1.distance ≤ distanceOf a.1.first a.1.second a.2 ∧
        (distanceOf a.1.first a.1.second a.2 = a.1.distance ↔
          a.1.merged ≠ none ∨ learner.FirstIsNearest a.1.first a.1.second) ∧
        (a.1.merged = none →
          a.1 ∈ learner.initialCandidates (LearnerState.ofTemplates templates).active.toList) := by
  refine ⟨mergeBatch_eq_foldl_record .., fun a ha => ?_⟩
  obtain ⟨hbatch, supply', hmerge⟩ := mem_applied ha
  have hranked := ranked_of_visits hbest hp _ ((live_eq_cons hl).1 _ (mem_batch hbatch).1)
  rw [hmerge]
  refine ⟨?_, hranked.le_distanceOf_mergeOf supply', hranked.distanceOf_mergeOf_iff supply',
    hranked.initial⟩
  rw [hranked.distance]
  exact learner.isLeast_distance a.1.first a.1.second

/-- Two lines that differ in one word. -/
def greetings : List Template := [.ofWords ["hello", "world"], .ofWords ["hi", "world"]]

/-- The only candidate for the two lines. -/
def greetingPair : Candidate := ⟨.ofWords ["hello", "world"], .ofWords ["hi", "world"], 2, none⟩

theorem merges_cost_ranks_of_greetings :
    ({} : Learner).judgeByBest = true ∧
      ({} : Learner).Visits greetings 0 (({} : Learner).start greetings 0) ∧
      (({} : Learner).start greetings 0).live = [greetingPair] ∧
      ∀ a ∈ ({} : Learner).applied [greetingPair] 0,
        distanceOf greetingPair.first greetingPair.second a.2 = greetingPair.distance := by
  have hl : (({} : Learner).start greetings 0).live = [greetingPair] := by decide +kernel
  refine ⟨rfl, .start, hl, fun a ha => ?_⟩
  obtain ⟨-, -, hcost, -⟩ := (merges_cost_ranks rfl .start hl).2 a ha
  have htop : a.1 = greetingPair := List.mem_singleton.1 (mem_applied ha).1
  rw [htop] at hcost
  exact hcost.2 (.inr (by decide +kernel))

/-- Two lines with two best alignments, of which the first gives the longer merge. -/
def repeatedWord : List Template := [.ofWords ["a", "a", "b"], .ofWords ["a"]]

/-- The only candidate for the two lines, ranked by the merge `a [SLOT]`. -/
def repeatedPair : Candidate := ⟨.ofWords ["a", "a", "b"], .ofWords ["a"], 3, none⟩

/-- **A recorded merge can cost more than its rank**: of `a a b` and `a` the merge `[SLOT] a [SLOT]` is
recorded. -/
theorem first_merge_costs_more :
    ({} : Learner).judgeByBest = true ∧
      ({} : Learner).Visits repeatedWord 0 (({} : Learner).start repeatedWord 0) ∧
      (({} : Learner).start repeatedWord 0).state.isUnfinished = true ∧
      (({} : Learner).start repeatedWord 0).live = [repeatedPair] ∧
      ∃ m, ({} : Learner).applied
          (({} : Learner).batch (({} : Learner).start repeatedWord 0) repeatedPair []) 0 =
            [(repeatedPair, m)] ∧
        m.form = [.slot (.anonymous 0), .literal "a", .slot (.anonymous 0)] ∧
        distanceOf repeatedPair.first repeatedPair.second m = 4 ∧ repeatedPair.distance = 3 := by
  refine ⟨rfl, .start, by decide +kernel, by decide +kernel, _, rfl, by decide +kernel,
    by decide +kernel, rfl⟩

end Learner

end GrammarInduction
