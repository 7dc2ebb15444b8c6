import GrammarInduction.Proofs.Learner.Ranking
import Mathlib.Data.List.Perm.Basic

/-!
# The windows of initial candidates

A template is paired with the later ones whose distance is within a window above the least one. The
least distance comes out only while the later templates are gone through: a closer one moves the window
down, and partners that are above it then are dropped. `Keeps` is what holds of the partners at any time:
they are the templates gone through so far within the window above the least of their distances
(`Keeps.consider`, `exists_perm_partners`). A template that was left out is above every later window.

So the initial candidates are exactly the pairs of a template and a later one within the window above
the least distance, each pair once (`initial_candidates_in_windows`).
-/

namespace GrammarInduction.Learner

variable {learner : Learner} {template other : Template} {templates seen later : List Template}
  {closest : Closest} {c : Candidate} {least d : Int}

/-! ## Windows -/

/-- The end of the window above a distance is a signed word of 64 bits. -/
def WindowFits (learner : Learner) (least : Int) : Prop :=
  Int64.minValue.toInt ≤ least + learner.wordsPerSlot - 1 ∧
    least + learner.wordsPerSlot - 1 ≤ Int64.maxValue.toInt

instance (learner : Learner) (least : Int) : Decidable (learner.WindowFits least) :=
  inferInstanceAs (Decidable (_ ∧ _))

theorem isWithinWindow_iff (h : learner.WindowFits least) :
    learner.isWithinWindow least d = true ↔ d ≤ least + learner.wordsPerSlot - 1 := by
  obtain ⟨hmin, hmax⟩ := h
  rw [Int64.toInt_minValue] at hmin
  rw [Int64.toInt_maxValue] at hmax
  rw [isWithinWindow, decide_eq_true_iff, Int.bmod_eq_of_le]
  · rw [UInt64.size]; omega
  · rw [UInt64.size]; omega

/-- The distances of a template from others. -/
def distances (learner : Learner) (template : Template) (templates : List Template) : Set Int :=
  {d | ∃ t ∈ templates, learner.distance template t = d}

theorem distances_concat : learner.distances template (seen ++ [other]) =
    insert (learner.distance template other) (learner.distances template seen) := by
  ext d
  simp only [distances, List.mem_append, List.mem_singleton, or_and_right, exists_or,
    exists_eq_left, Set.mem_insert_iff, Set.mem_ofPred_eq]
  rw [or_comm, eq_comm]

/-- The templates of a list within the window above a distance, each with its distance. -/
def within (learner : Learner) (template : Template) (least : Int) (templates : List Template) :
    List (Int × Template) :=
  (templates.filter fun t => learner.distance template t ≤ least + learner.wordsPerSlot - 1).map
    fun t => (learner.distance template t, t)

theorem mem_within_iff {q : Int × Template} : q ∈ learner.within template least templates ↔
    ∃ t ∈ templates, learner.distance template t ≤ least + learner.wordsPerSlot - 1 ∧
      q = (learner.distance template t, t) := by
  simp only [within, List.mem_map, List.mem_filter, decide_eq_true_iff, and_assoc, eq_comm (a := q)]

theorem within_concat : learner.within template least (templates ++ [other]) =
    learner.within template least templates ++
      if learner.distance template other ≤ least + learner.wordsPerSlot - 1 then
        [(learner.distance template other, other)]
      else [] := by
  rw [within, List.filter_append, List.map_append, List.filter_singleton]
  split
  next h => rw [decide_eq_true h]; rfl
  next h => rw [decide_eq_false h]; rfl

/-- What is left of a window in a lower one is the lower one. -/
theorem filter_within (hfits : learner.WindowFits d) (hlt : d < least) :
    (learner.within template least templates).filter (fun p => learner.isWithinWindow d p.1) =
      learner.within template d templates := by
  rw [within, List.filter_map, List.filter_filter, within]
  refine congrArg (List.map _) (List.filter_congr fun t _ => ?_)
  rw [Bool.eq_iff_iff, Bool.and_eq_true, decide_eq_true_iff, decide_eq_true_iff,
    Function.comp_apply, isWithinWindow_iff hfits]
  omega

/-! ## Going through the later templates -/

theorem consider_none (hne : (other == template) = false) :
    learner.consider template ⟨none, []⟩ other =
      ⟨some (learner.distance template other), [(learner.distance template other, other)]⟩ := by
  simp [consider, hne]

/-- A template that is no closer is kept if it is within the window. -/
theorem consider_of_le (hne : (other == template) = false) (hleast : closest.least = some least)
    (hle : least ≤ learner.distance template other) :
    learner.consider template closest other =
      if learner.isWithinWindow least (learner.distance template other) then
        ⟨some least, closest.partners ++ [(learner.distance template other, other)]⟩
      else closest := by
  simp [consider, hne, hleast, hle]

/-- A closer template is kept, and moves the window down. -/
theorem consider_of_lt (hne : (other == template) = false) (hleast : closest.least = some least)
    (hlt : learner.distance template other < least) :
    learner.consider template closest other =
      ⟨some (learner.distance template other), (learner.distance template other, other) ::
        closest.partners.filter fun p =>
          learner.isWithinWindow (learner.distance template other) p.1⟩ := by
  simp [consider, hne, hleast, Int.not_le_of_gt hlt]

/-- What is kept of templates that were gone through: those in the window above the least of their
distances. -/
structure Keeps (learner : Learner) (template : Template) (seen : List Template) (closest : Closest)
    (least : Int) : Prop where
  least_eq : closest.least = some least
  isLeast : IsLeast (learner.distances template seen) least
  partners : closest.partners.Perm (learner.within template least seen)

/-- The first template that is gone through is kept. -/
theorem keeps_first (hwidth : 1 ≤ learner.wordsPerSlot) (hne : (other == template) = false) :
    learner.Keeps template [other] (learner.consider template ⟨none, []⟩ other)
      (learner.distance template other) := by
  rw [consider_none hne, ← List.nil_append [other]]
  refine ⟨rfl, ?_, ?_⟩
  · have hnone : learner.distances template [] = ∅ := by simp [distances]
    rw [distances_concat, hnone, insert_empty_eq]
    exact isLeast_singleton
  · rw [within_concat, if_pos (by omega)]
    exact .refl _

/-- **One more template is gone through**, and the window is moved down if it is closer. -/
theorem Keeps.consider (h : learner.Keeps template seen closest least)
    (hwidth : 1 ≤ learner.wordsPerSlot) (hne : (other == template) = false)
    (hleast : learner.WindowFits least)
    (hother : learner.WindowFits (learner.distance template other)) :
    ∃ least', learner.Keeps template (seen ++ [other]) (learner.consider template closest other)
      least' := by
  have hlower := h.isLeast.insert (learner.distance template other)
  rw [← distances_concat] at hlower
  rcases lt_or_ge (learner.distance template other) least with hlt | hle
  · refine ⟨learner.distance template other, ?_⟩
    rw [min_eq_left_of_lt hlt] at hlower
    rw [consider_of_lt hne h.least_eq hlt]
    refine ⟨rfl, hlower, ?_⟩
    have hkept := h.partners.filter fun p =>
      learner.isWithinWindow (learner.distance template other) p.1
    rw [filter_within hother hlt] at hkept
    rw [within_concat, if_pos (by omega)]
    exact (hkept.cons _).trans (List.perm_append_singleton ..).symm
  · refine ⟨least, ?_⟩
    rw [min_eq_right hle] at hlower
    rw [consider_of_le hne h.least_eq hle]
    split
    next hin =>
      refine ⟨rfl, hlower, ?_⟩
      rw [within_concat, if_pos ((isWithinWindow_iff hleast).1 hin)]
      exact h.partners.append_right _
    next hout =>
      refine ⟨h.least_eq, hlower, ?_⟩
      rw [within_concat, if_neg fun hin => hout ((isWithinWindow_iff hleast).2 hin), List.append_nil]
      exact h.partners

theorem Keeps.foldl (h : learner.Keeps template seen closest least)
    (hwidth : 1 ≤ learner.wordsPerSlot) (hne : ∀ t ∈ later, (t == template) = false)
    (hfits : ∀ t ∈ seen ++ later, learner.WindowFits (learner.distance template t)) :
    ∃ least', learner.Keeps template (seen ++ later)
      (later.foldl (learner.consider template) closest) least' := by
  induction later generalizing seen closest least with
  | nil => exact ⟨least, by simpa using h⟩
  | cons other later ih =>
    obtain ⟨t, ht, rfl⟩ := h.isLeast.1
    obtain ⟨least', h'⟩ := h.consider hwidth (hne other List.mem_cons_self)
      (hfits t (List.mem_append_left _ ht)) (hfits other (by simp))
    rw [List.append_cons] at hfits ⊢
    exact ih h' (fun u hu => hne u (.tail _ hu)) hfits

/-- **What is kept of the later templates**: those in the window above the least distance. -/
theorem exists_perm_partners (hwidth : 1 ≤ learner.wordsPerSlot)
    (hne : ∀ t ∈ later, (t == template) = false)
    (hfits : ∀ t ∈ later, learner.WindowFits (learner.distance template t)) :
    ∃ least, (later ≠ [] → IsLeast (learner.distances template later) least) ∧
      (later.foldl (learner.consider template) ⟨none, []⟩).partners.Perm
        (learner.within template least later) := by
  cases later with
  | nil => exact ⟨0, fun h => absurd rfl h, .nil⟩
  | cons other later =>
    obtain ⟨least, hkeeps⟩ := (keeps_first hwidth (hne other List.mem_cons_self)).foldl hwidth
      (fun t ht => hne t (.tail _ ht)) hfits
    exact ⟨least, fun _ => hkeeps.isLeast, hkeeps.partners⟩

/-! ## The candidates -/

/-- The candidates of a template with later ones. -/
def pairsWith (learner : Learner) (template : Template) (later : List Template) : List Candidate :=
  (later.foldl (learner.consider template) ⟨none, []⟩).partners.map fun (d, other) =>
    ⟨template, other, d, none⟩

theorem initialCandidates_cons : learner.initialCandidates (template :: later) =
    learner.pairsWith template later ++ learner.initialCandidates later := rfl

/-- A candidate pairs a template with a later one within the window above the least distance, and has
their distance. -/
def PairsInWindow (learner : Learner) (template : Template) (later : List Template) (c : Candidate) :
    Prop :=
  ∃ other ∈ later, ∃ least, IsLeast (learner.distances template later) least ∧
    learner.distance template other ≤ least + learner.wordsPerSlot - 1 ∧
    c = ⟨template, other, learner.distance template other, none⟩

/-- Two candidates that pair other templates. -/
def Apart (c d : Candidate) : Prop := (c.first == d.first && c.second == d.second) = false

theorem mem_pairsWith_iff (hwidth : 1 ≤ learner.wordsPerSlot)
    (hne : ∀ t ∈ later, (t == template) = false)
    (hfits : ∀ t ∈ later, learner.WindowFits (learner.distance template t)) :
    c ∈ learner.pairsWith template later ↔ learner.PairsInWindow template later c := by
  obtain ⟨least, hleast, hperm⟩ := exists_perm_partners hwidth hne hfits
  rw [pairsWith, List.mem_map]
  constructor
  · rintro ⟨q, hq, rfl⟩
    obtain ⟨other, hmem, hin, rfl⟩ := mem_within_iff.1 (hperm.mem_iff.1 hq)
    exact ⟨other, hmem, least, hleast (List.ne_nil_of_mem hmem), hin, rfl⟩
  · rintro ⟨other, hmem, least', hleast', hin, rfl⟩
    obtain rfl := hleast'.unique (hleast (List.ne_nil_of_mem hmem))
    exact ⟨_, hperm.mem_iff.2 (mem_within_iff.2 ⟨other, hmem, hin, rfl⟩), rfl⟩

theorem pairwise_pairsWith (hwidth : 1 ≤ learner.wordsPerSlot)
    (hne : ∀ t ∈ later, (t == template) = false)
    (hfits : ∀ t ∈ later, learner.WindowFits (learner.distance template t))
    (hdistinct : later.Pairwise fun t u => (t == u) = false) :
    (learner.pairsWith template later).Pairwise Apart := by
  obtain ⟨least, -, hperm⟩ := exists_perm_partners hwidth hne hfits
  have hwithin : (learner.within template least later).Pairwise fun p q => (p.2 == q.2) = false :=
    List.pairwise_map.2 (hdistinct.filter _)
  have hsymm {p q : Int × Template} (h : (p.2 == q.2) = false) : (q.2 == p.2) = false := by
    rwa [BEq.comm]
  refine List.pairwise_map.2 (((hperm.pairwise_iff hsymm).2 hwithin).imp fun h => ?_)
  rw [Apart, h, Bool.and_false]

theorem mem_initialCandidates_iff (hwidth : 1 ≤ learner.wordsPerSlot)
    (hdistinct : templates.Pairwise fun t u => (t == u) = false)
    (hfits : templates.Pairwise fun t u => learner.WindowFits (learner.distance t u)) :
    c ∈ learner.initialCandidates templates ↔
      ∃ earlier template later, templates = earlier ++ template :: later ∧
        learner.PairsInWindow template later c := by
  induction templates with
  | nil => simp [initialCandidates]
  | cons first later ih =>
    obtain ⟨hne, hdistinct⟩ := List.pairwise_cons.1 hdistinct
    obtain ⟨hfirst, hfits⟩ := List.pairwise_cons.1 hfits
    rw [initialCandidates_cons, List.mem_append, ih hdistinct hfits,
      mem_pairsWith_iff hwidth (fun t ht => by rw [BEq.comm, hne t ht]) hfirst]
    constructor
    · rintro (h | ⟨earlier, template, rest, rfl, h⟩)
      · exact ⟨[], first, later, rfl, h⟩
      · exact ⟨first :: earlier, template, rest, rfl, h⟩
    · rintro ⟨earlier, template, rest, heq, h⟩
      rcases List.cons_eq_append_iff.1 heq with ⟨rfl, heq⟩ | ⟨earlier, rfl, rfl⟩
      · obtain ⟨rfl, rfl⟩ := List.cons.inj heq
        exact .inl h
      · exact .inr ⟨earlier, template, rest, rfl, h⟩

theorem pairwise_initialCandidates (hwidth : 1 ≤ learner.wordsPerSlot)
    (hdistinct : templates.Pairwise fun t u => (t == u) = false)
    (hfits : templates.Pairwise fun t u => learner.WindowFits (learner.distance t u)) :
    (learner.initialCandidates templates).Pairwise Apart := by
  induction templates with
  | nil => exact .nil
  | cons first later ih =>
    obtain ⟨hne, hdistinct⟩ := List.pairwise_cons.1 hdistinct
    obtain ⟨hfirst, hfits⟩ := List.pairwise_cons.1 hfits
    rw [initialCandidates_cons]
    refine List.pairwise_append.2 ⟨?_, ih hdistinct hfits, fun c hc d hd => ?_⟩
    · exact pairwise_pairsWith hwidth (fun t ht => by rw [BEq.comm, hne t ht]) hfirst hdistinct
    · obtain ⟨q, -, rfl⟩ := List.mem_map.1 hc
      obtain ⟨earlier, template, rest, rfl, -, -, -, -, -, rfl⟩ :=
        (mem_initialCandidates_iff hwidth hdistinct hfits).1 hd
      rw [Apart, hne template (List.mem_append_right _ List.mem_cons_self), Bool.false_and]

/-- **The initial candidates are those in the windows above the least distances.** If the ends of the
windows are words, then each template of a set is paired with every later one whose distance is within
the window above the least distance of the template from a later one, and with no other. The candidate
has the distance of its templates, which is the least that any merge of them gives up, and there is no
second candidate for the two. -/
theorem initial_candidates_in_windows (templates : OrderedSet Template)
    (hwidth : 1 ≤ learner.wordsPerSlot)
    (hfits : templates.toList.Pairwise fun t u => learner.WindowFits (learner.distance t u)) :
    (∀ c, c ∈ learner.initialCandidates templates.toList ↔
        ∃ earlier template later, templates.toList = earlier ++ template :: later ∧
          learner.PairsInWindow template later c) ∧
      (learner.initialCandidates templates.toList).Pairwise Apart ∧
      ∀ first second, IsLeast (learner.losses first second) (learner.distance first second) :=
  ⟨fun _ => mem_initialCandidates_iff hwidth templates.distinct hfits,
    pairwise_initialCandidates hwidth templates.distinct hfits, learner.isLeast_distance⟩

/-- A learner with windows of two distances. -/
def wideLearner : Learner := { wordsPerSlot := 2 }

/-- A line without a word in common with `a b c`, a close one, and one a bit further away. -/
def laterLines : List Template :=
  [.ofWords ["x", "y", "z"], .ofWords ["a", "b", "d"], .ofWords ["a", "x", "y"]]

/-- The line `a b c` and later ones. -/
def nearAndFarLines : OrderedSet Template := .ofList (.ofWords ["a", "b", "c"] :: laterLines)

/-- The line `a b c` is paired with the last one, and no more with the second one, which was the closest
when it was gone through. -/
theorem initial_candidates_in_windows_of_nearAndFarLines :
    1 ≤ wideLearner.wordsPerSlot ∧
      (nearAndFarLines.toList.Pairwise fun t u =>
        wideLearner.WindowFits (wideLearner.distance t u)) ∧
      ⟨.ofWords ["a", "b", "c"], .ofWords ["a", "x", "y"], 3, none⟩ ∈
        wideLearner.initialCandidates nearAndFarLines.toList ∧
      ⟨.ofWords ["a", "b", "c"], .ofWords ["x", "y", "z"], 4, none⟩ ∉
        wideLearner.initialCandidates nearAndFarLines.toList := by
  have hfits : nearAndFarLines.toList.Pairwise fun t u =>
      wideLearner.WindowFits (wideLearner.distance t u) := by decide +kernel
  have hlines : nearAndFarLines.toList = [] ++ .ofWords ["a", "b", "c"] :: laterLines := by
    decide +kernel
  have hleast : IsLeast (wideLearner.distances (.ofWords ["a", "b", "c"]) laterLines) 2 := by
    have hlower : ∀ t ∈ laterLines, 2 ≤ wideLearner.distance (.ofWords ["a", "b", "c"]) t := by
      decide +kernel
    refine ⟨⟨.ofWords ["a", "b", "d"], .tail _ List.mem_cons_self, by decide +kernel⟩, ?_⟩
    rintro _ ⟨t, ht, rfl⟩
    exact hlower t ht
  have hlast : Template.ofWords ["a", "x", "y"] ∈ laterLines := by simp [laterLines]
  refine ⟨by decide, hfits, ?_, by decide +kernel⟩
  exact ((initial_candidates_in_windows nearAndFarLines (by decide) hfits).1 _).2
    ⟨[], _, laterLines, hlines, _, hlast, 2, hleast, by decide +kernel, by decide +kernel⟩

end GrammarInduction.Learner
