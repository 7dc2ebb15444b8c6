import GrammarInduction.Failure
import GrammarInduction.Ordered.Set
import GrammarInduction.Template.Cover

/-!
# The search for fillings

A filling of `main` that gives `other` is built up from left to right. An *attempt* (`Attempt`) holds what
is left of the two templates; of its ways to go on only those are followed that lead to a filling, as the
table of `Cover` tells. The attempts wait on a stack (`search`). A slot is left behind before it takes in
another token, so that a shorter value of an earlier slot comes before a longer one.

`Template.fillings main other` lists the fillings that are found. Together with the failure for templates
that are not covered this is `Template.fillings?`.
-/

namespace GrammarInduction.Template

/-! ## Attempts -/

/-- A filling in the making: what is left of the two templates, the values so far, and whether the last
of them is still open. -/
structure Attempt where
  main : List Token
  other : List Token
  values : List Template
  isOpen : Bool

/-- Puts a token at the end of the last value. -/
def takeIn (values : List Template) (t : Token) : List Template :=
  values.dropLast ++ values.getLast?.toList.map fun value => ⟨value.tokens ++ [t]⟩

namespace Attempt

/-- The values at a slot: unless the last one is open, an empty one is begun. -/
def begun (a : Attempt) : List Template :=
  if a.isOpen then a.values else a.values ++ [⟨[]⟩]

/-- The ways to go on. A literal is matched by an equal one; a slot is left behind, or first takes in a
token. -/
def branches (a : Attempt) : List Attempt :=
  match a.main, a.other with
  | [], _ => []
  | .literal _ :: _, [] => []
  | .literal text :: main, t :: other =>
    if t = .literal text then [⟨main, other, a.values, false⟩] else []
  | .slot _ :: main, [] => [⟨main, [], a.begun, false⟩]
  | .slot s :: main, t :: other =>
    [⟨main, t :: other, a.begun, false⟩, ⟨.slot s :: main, other, takeIn a.begun t, true⟩]

/-- Whether what is left of the one template covers what is left of the other. -/
def viable (a : Attempt) : Bool := Cover.coversTokens a.main a.other

/-- The ways to go on that lead to a filling. -/
def next (a : Attempt) : List Attempt := a.branches.filter viable

/-- The fillings found so far, with the values of an attempt that has come to the end. -/
def record (a : Attempt) (found : OrderedSet (List Template)) : OrderedSet (List Template) :=
  if a.main.isEmpty && a.other.isEmpty then found.insert a.values else found

/-! ### Attempts come to an end -/

/-- The number of tokens left in the two templates. -/
def left (a : Attempt) : Nat := a.main.length + a.other.length

theorem left_lt_of_mem_branches {a b : Attempt} (h : b ∈ a.branches) : b.left < a.left := by
  obtain ⟨main, other, values, isOpen⟩ := a
  rcases main with _ | ⟨text | s, main⟩
  · cases h
  · rcases other with _ | ⟨t, other⟩
    · cases h
    · obtain ⟨-, hb⟩ := List.mem_ite_nil_right.1 h
      obtain rfl := List.mem_singleton.1 hb
      simp only [left, List.length_cons]
      omega
  · rcases other with _ | ⟨t, other⟩
    · obtain rfl := List.mem_singleton.1 h
      exact Nat.lt_succ_self _
    · simp only [branches, List.mem_cons, List.not_mem_nil, or_false] at h
      rcases h with rfl | rfl <;> simp only [left, List.length_cons] <;> omega

theorem length_branches_le (a : Attempt) : a.branches.length ≤ 2 := by
  unfold branches
  split
  · exact Nat.zero_le _
  · exact Nat.zero_le _
  · split <;> simp
  · exact Nat.le_succ _
  · exact Nat.le_refl _

/-- A bound on the attempts that come of one. -/
def weight (a : Attempt) : Nat := Nat.pow 3 a.left

/-- The weight of a stack. -/
def total : List Attempt → Nat
  | [] => 0
  | a :: stack => a.weight + total stack

theorem total_append (as stack : List Attempt) : total (as ++ stack) = total as + total stack := by
  induction as with
  | nil => simp [total]
  | cons a as ih => simp [total, ih, Nat.add_assoc]

theorem mul_total_le {n : Nat} {as : List Attempt} (h : ∀ b ∈ as, 3 * b.weight ≤ n) :
    3 * total as ≤ as.length * n := by
  induction as with
  | nil => simp [total]
  | cons b as ih =>
    obtain ⟨hb, has⟩ := List.forall_mem_cons.1 h
    have := ih has
    simp only [total, List.length_cons, Nat.add_mul]
    omega

/-- An attempt outweighs the two that take its place. -/
theorem total_next_lt (a : Attempt) : total a.next < a.weight := by
  have hthird {b : Attempt} (hb : b ∈ a.next) : 3 * b.weight ≤ a.weight := by
    have hleft := left_lt_of_mem_branches (List.mem_filter.1 hb).1
    exact Nat.le_trans (Nat.le_of_eq Nat.pow_succ'.symm) (Nat.pow_le_pow_right (by decide) hleft)
  have hsum := mul_total_le fun _ => hthird
  have htwo : a.next.length ≤ 2 := Nat.le_trans (List.length_filter_le ..) a.length_branches_le
  have hle := Nat.mul_le_mul_right a.weight htwo
  have hpos : 0 < a.weight := Nat.pow_pos (by decide)
  omega

end Attempt

/-! ## The search -/

/-- Goes on with the attempts of a stack, the ways to go on from an attempt before the rest of the
stack. -/
def search (stack : List Attempt) (found : OrderedSet (List Template)) : OrderedSet (List Template) :=
  match stack with
  | [] => found
  | a :: stack => search (a.next ++ stack) (a.record found)
termination_by Attempt.total stack
decreasing_by
  rw [Attempt.total_append, Attempt.total]
  exact Nat.add_lt_add_right a.total_next_lt _

/-- The fillings of `main` that give `other`, in the order in which they are found. -/
def fillings (main other : Template) : List (List Template) :=
  (search [⟨main.tokens, other.tokens, [], false⟩] .empty).toList

/-- The fillings of `main` that give `other`, if `main` covers `other`. -/
def fillings? (main other : Template) : Except Failure (List (List Template)) :=
  if main.covers other then .ok (main.fillings other) else .error (.notCovered main other)

end GrammarInduction.Template
