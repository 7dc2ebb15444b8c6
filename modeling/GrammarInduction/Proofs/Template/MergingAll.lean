import GrammarInduction.Proofs.Template.Kept

/-!
# Merging all templates of a list

The running merge of a list only grows more general, and it covers each template that is merged into it.
A template with which no merge is admitted is *passed over* (`passedOver`): the running merge stays as it
is, and may fail to cover it. The result covers all templates exactly if it covers those that were passed
over (`mergeAll_covers_iff`).

Merges are passed over for their length or for their literals. A merge along an alignment that deletes
only, or inserts only, is never longer than both templates (`length_mergedTokens_le_max`); so a template
is passed over only if each alignment that is tried does both, or keeps fewer literals than the target
has. Two lines with a shifted common part are merged in no other way (`mergeAll_misses_shifted`).
-/

namespace GrammarInduction

namespace Alignment

variable {α : Type u} {xs ys : List α} {ops : List EditOp}

theorem Valid.length_eq_add_inserts (h : Valid xs ys ops) :
    ops.length = xs.length + ops.count .insert := by
  induction h with
  | nil => rfl
  | insert y _ ih => simp [ih, Nat.add_assoc]
  | _ => simp_all [Nat.add_right_comm]

theorem Valid.length_eq_add_deletes (h : Valid xs ys ops) :
    ops.length = ys.length + ops.count .delete := by
  induction h with
  | nil => rfl
  | delete y _ ih => simp [ih, Nat.add_assoc]
  | _ => simp_all [Nat.add_right_comm]

end Alignment

namespace Template

/-! ## The length and the literals of a merge -/

section Tokens

variable {ops : List EditOp} {xs ys : List Token}

theorem length_mergedTokens_le (minimal : Bool) (ops : List EditOp) (xs : List Token)
    (last : Option Token) (id : Nat) : (mergedTokens minimal ops xs last id).length ≤ ops.length := by
  induction ops generalizing xs last id with
  | nil => simp [mergedTokens]
  | cons op ops ih =>
    rw [mergedTokens]
    split
    · exact (ih ..).trans (Nat.le_succ _)
    · exact Nat.succ_le_succ (ih ..)

/-- **Without both deletions and insertions a merge is not longer than both templates.** -/
theorem length_mergedTokens_le_max (h : Alignment.Valid xs ys ops)
    (hgaps : ¬ (.delete ∈ ops ∧ .insert ∈ ops)) (minimal : Bool) (last : Option Token) (id : Nat) :
    (mergedTokens minimal ops xs last id).length ≤ xs.length ∨
      (mergedTokens minimal ops xs last id).length ≤ ys.length := by
  have hle := length_mergedTokens_le minimal ops xs last id
  by_cases hdelete : .delete ∈ ops
  · have hinsert : ops.count .insert = 0 := List.count_eq_zero.2 fun h => hgaps ⟨hdelete, h⟩
    have := h.length_eq_add_inserts
    omega
  · have hdelete : ops.count .delete = 0 := List.count_eq_zero.2 hdelete
    have := h.length_eq_add_deletes
    omega

theorem literals_lastingTokens (tokens : List Token) :
    (lastingTokens tokens).filterMap Token.literal? = tokens.filterMap Token.literal? := by
  rw [lastingTokens, List.filterMap_filter]
  congr 1
  funext t
  rcases t with text | (id | name) <;> rfl

/-- The literals of a merge are those that the alignment keeps. -/
theorem literals_mergedTokens (minimal : Bool) (ops : List EditOp) (xs : List Token)
    (last : Option Token) (id : Nat) :
    (mergedTokens minimal ops xs last id).filterMap Token.literal? =
      (kept ops xs).filterMap Token.literal? := by
  rw [← literals_lastingTokens, lastingTokens_mergedTokens, literals_lastingTokens]

end Tokens

/-! ## Templates that are passed over -/

variable {policy : MergePolicy} {target : Option Template} {first second current next : Template}
  {rest : List Template} {ops : List EditOp} {supply : Nat}

/-- How a list of templates is merged. -/
def foldPolicy (minimalVariables : Bool) (target : Option Template) : MergePolicy :=
  { minimalVariables, minLiterals := target.map fun t => t.literals.length }

/-- The next template with the running merge, if no merge of the two is admitted and the running merge
does not cover it. -/
def missed (policy : MergePolicy) (current next : Template) (supply : Nat) :
    List (Template × Template) :=
  if (merges policy current next supply).1.isEmpty && !current.covers next then [(current, next)] else []

/-- The templates that are passed over, each with the running merge at that point. -/
def passedOver (policy : MergePolicy) (target : Option Template) (current : Template) :
    List Template → Nat → List (Template × Template)
  | [], _ => []
  | next :: rest, supply =>
    let step := merges policy current next supply
    let merged := step.1.headD current
    missed policy current next supply ++
      if target.any (·.sameShape merged) then [] else passedOver policy target merged rest step.2

theorem mem_missed_iff {p : Template × Template} : p ∈ missed policy current next supply ↔
    p = (current, next) ∧ (merges policy current next supply).1 = [] ∧ current.covers next = false := by
  simp [missed, and_comm]

theorem mergeFrom_cons (policy : MergePolicy) (target : Option Template) (current next : Template)
    (rest : List Template) (supply : Nat) :
    mergeFrom policy target current (next :: rest) supply =
      let step := merges policy current next supply
      let merged := step.1.headD current
      if target.any (·.sameShape merged) then (target.getD merged, step.2)
      else mergeFrom policy target merged rest step.2 := by
  cases target <;> simp [mergeFrom]

/-- One step of merging: the new running merge covers the old one, and it covers the next template
unless that is missed. -/
theorem covers_headD_merges (policy : MergePolicy) (current next : Template) (supply : Nat) :
    ((merges policy current next supply).1.headD current).covers current = true ∧
      (((merges policy current next supply).1.headD current).covers next = true ∨
        (current, next) ∈ missed policy current next supply) := by
  cases hm : (merges policy current next supply).1 with
  | nil =>
    refine ⟨covers_refl current, ?_⟩
    cases hcovers : current.covers next with
    | true => exact .inl hcovers
    | false => exact .inr (mem_missed_iff.2 ⟨rfl, hm, hcovers⟩)
  | cons merged ms =>
    obtain ⟨hcurrent, hnext⟩ := covers_of_mem_merges (hm ▸ List.mem_cons_self)
    exact ⟨hcurrent, .inl hnext⟩

theorem covers_of_sameShape {t u : Template} (h : t.sameShape u = true) : t.covers u = true := by
  rw [covers_congr (beq_iff_eq.1 h) rfl]
  exact covers_refl u

/-- **The running merge only grows more general**, and what it does not cover in the end has been passed
over. -/
theorem covers_mergeFrom (policy : MergePolicy) (current : Template) (supply : Nat)
    (htarget : ∀ t ∈ target, ∀ x ∈ rest, t.covers x = true) :
    (mergeFrom policy target current rest supply).1.covers current = true ∧
      ∀ x ∈ rest, (mergeFrom policy target current rest supply).1.covers x = true ∨
        ∃ p ∈ passedOver policy target current rest supply, p.2 = x := by
  induction rest generalizing current supply with
  | nil => exact ⟨covers_refl current, by simp⟩
  | cons next rest ih =>
    obtain ⟨hcurrent, hnext⟩ := covers_headD_merges policy current next supply
    simp only [mergeFrom_cons, passedOver]
    generalize (merges policy current next supply).1.headD current = merged at *
    by_cases hshape : target.any (·.sameShape merged) = true
    · obtain ⟨t, rfl, ht⟩ := (Option.any_eq_true _ _).1 hshape
      simp only [if_pos hshape]
      exact ⟨covers_trans (covers_of_sameShape ht) hcurrent, fun x hx => .inl (htarget t rfl x hx)⟩
    · obtain ⟨hmerged, hrest⟩ := ih merged _ fun t ht x hx => htarget t ht x (.tail _ hx)
      simp only [if_neg hshape]
      refine ⟨covers_trans hmerged hcurrent, List.forall_mem_cons.2 ⟨?_, fun x hx => ?_⟩⟩
      · rcases hnext with hnext | hmissed
        · exact .inl (covers_trans hmerged hnext)
        · exact .inr ⟨(current, next), List.mem_append_left _ hmissed, rfl⟩
      · refine (hrest x hx).imp_right ?_
        rintro ⟨p, hp, hpx⟩
        exact ⟨p, List.mem_append_right _ hp, hpx⟩

/-- What is passed over is a template of the list that the running merge does not cover, and with which
it has no merge. -/
theorem of_mem_passedOver {p : Template × Template}
    (h : p ∈ passedOver policy target current rest supply) :
    p.2 ∈ rest ∧ p.1.covers p.2 = false ∧ ∃ supply, (merges policy p.1 p.2 supply).1 = [] := by
  induction rest generalizing current supply with
  | nil => simp [passedOver] at h
  | cons next rest ih =>
    simp only [passedOver] at h
    rcases List.mem_append.1 h with h | h
    · obtain ⟨rfl, hnone, hcovers⟩ := mem_missed_iff.1 h
      exact ⟨List.mem_cons_self, hcovers, supply, hnone⟩
    · split at h
      · cases h
      · obtain ⟨hrest, hfacts⟩ := ih h
        exact ⟨.tail _ hrest, hfacts⟩

/-- Two templates without a merge have no alignment that keeps literals enough and does not both delete
and insert. -/
theorem forall_alignments_of_merges_eq_nil {minimalVariables : Bool}
    (h : (merges (foldPolicy minimalVariables target) first second supply).1 = [])
    (hops : ops ∈ Alignment.alignments (some defaultAlignments) first.tokens second.tokens) :
    (.delete ∈ ops ∧ .insert ∈ ops) ∨
      ∃ t ∈ target, ((kept ops first.tokens).filterMap Token.literal?).length < t.literals.length := by
  by_contra hnot
  rw [not_or] at hnot
  obtain ⟨hgaps, hliterals⟩ := hnot
  have hadmitted (id : Nat) : admitted (foldPolicy minimalVariables target) first second
      (mergeAlong (foldPolicy minimalVariables target) ops first id) = true := by
    have hshort := length_mergedTokens_le_max (Alignment.valid_of_mem_alignments hops) hgaps
      minimalVariables none id
    refine admitted_iff.2 ⟨.inr hshort, fun n hn => ?_⟩
    obtain ⟨t, ht, rfl⟩ := Option.map_eq_some_iff.1 hn
    have hle : t.literals.length ≤ ((kept ops first.tokens).filterMap Token.literal?).length :=
      Nat.not_lt.1 fun hlt => hliterals ⟨t, ht, hlt⟩
    rwa [← literals_mergedTokens minimalVariables ops first.tokens none id] at hle
  obtain ⟨id, hmem⟩ := exists_mem_merges hops hadmitted supply
  rw [h] at hmem
  cases hmem

/-! ## The result -/

/-- **What merging all templates covers.** The result covers the first template, and it covers all of them
exactly if it covers those that have been passed over. A template is passed over only if the running merge
does not cover it, and if each alignment of the two that is tried both deletes and inserts, or keeps fewer
literals than the target has. -/
theorem mergeAll_covers_iff (first : Template) (rest : List Template) (minimalVariables : Bool)
    (target : Option Template) (supply : Nat)
    (htarget : ∀ t ∈ target, ∀ x ∈ first :: rest, t.covers x = true) :
    ∃ merged, (mergeAll (first :: rest) minimalVariables target supply).1 = some merged ∧
      merged.covers first = true ∧
      ((∀ x ∈ first :: rest, merged.covers x = true) ↔
        ∀ p ∈ passedOver (foldPolicy minimalVariables target) target first rest supply,
          merged.covers p.2 = true) ∧
      ∀ p ∈ passedOver (foldPolicy minimalVariables target) target first rest supply,
        p.1.covers p.2 = false ∧
        ∀ ops ∈ Alignment.alignments (some defaultAlignments) p.1.tokens p.2.tokens,
          (.delete ∈ ops ∧ .insert ∈ ops) ∨ ∃ t ∈ target,
            ((kept ops p.1.tokens).filterMap Token.literal?).length < t.literals.length := by
  obtain ⟨hfirst, hrest⟩ := covers_mergeFrom (foldPolicy minimalVariables target) first supply
    fun t ht x hx => htarget t ht x (.tail _ hx)
  refine ⟨_, rfl, hfirst, ⟨fun hall p hp => ?_, fun hpassed => ?_⟩, fun p hp => ?_⟩
  · exact hall p.2 (.tail _ (of_mem_passedOver hp).1)
  · refine List.forall_mem_cons.2 ⟨hfirst, fun x hx => ?_⟩
    rcases hrest x hx with hcovers | ⟨p, hp, rfl⟩
    · exact hcovers
    · exact hpassed p hp
  · obtain ⟨-, hcovers, supply, hnone⟩ := of_mem_passedOver hp
    exact ⟨hcovers, fun ops hops => forall_alignments_of_merges_eq_nil hnone hops⟩

/-- A line of three words. -/
def someLine : Template := ofWords ["x", "a", "b"]

/-- A line that has the last two words of `someLine` in front. -/
def shiftedLine : Template := ofWords ["a", "b", "y"]

/-- A line that has nothing in common with the two. -/
def otherLine : Template := ofWords ["q", "r", "s"]

/-- What all lines are merged into. -/
def anyLine : Template := ofSlot (.anonymous 0)

/-- The shifted line is passed over, and the result covers it after all: the third line leaves nothing but
a slot. -/
theorem mergeAll_covers_iff_of_shifted :
    (∀ t ∈ some anyLine, ∀ x ∈ [someLine, shiftedLine, otherLine], t.covers x = true) ∧
    passedOver (foldPolicy true (some anyLine)) (some anyLine) someLine [shiftedLine, otherLine] 1 =
      [(someLine, shiftedLine)] ∧
    ∃ merged, (mergeAll [someLine, shiftedLine, otherLine] true (some anyLine) 1).1 = some merged ∧
      merged.covers someLine = true ∧
      ((∀ x ∈ [someLine, shiftedLine, otherLine], merged.covers x = true) ↔
        merged.covers shiftedLine = true) := by
  have htarget : ∀ t ∈ some anyLine, ∀ x ∈ [someLine, shiftedLine, otherLine], t.covers x = true := by
    rintro t ⟨⟩
    decide
  have hpassed : passedOver (foldPolicy true (some anyLine)) (some anyLine) someLine
      [shiftedLine, otherLine] 1 = [(someLine, shiftedLine)] := by
    decide +kernel
  obtain ⟨merged, hmerged, hfirst, hiff, -⟩ :=
    mergeAll_covers_iff someLine [shiftedLine, otherLine] true (some anyLine) 1 htarget
  rw [hpassed, List.forall_mem_singleton] at hiff
  exact ⟨htarget, hpassed, merged, hmerged, hfirst, hiff⟩

/-- The merge of the two shifted lines, if longer ones are admitted. -/
def aroundShifted : Template :=
  ⟨[.slot (.anonymous 0), .literal "a", .literal "b", .slot (.anonymous 1)]⟩

/-- **Not all templates are covered.** The only optimal alignment of two lines with a shifted common part
deletes the first token and inserts the last one, and its merge is longer than both. So the second line is
passed over, also where the target is that merge. -/
theorem mergeAll_misses_shifted :
    aroundShifted.covers someLine = true ∧ aroundShifted.covers shiftedLine = true ∧
    (mergeAll [someLine, shiftedLine] true none 2).1 = some someLine ∧
    (mergeAll [someLine, shiftedLine] true (some aroundShifted) 2).1 = some someLine ∧
    someLine.covers shiftedLine = false := by
  decide +kernel

end Template

end GrammarInduction
