import GrammarInduction.SlotNames
import Mathlib.Algebra.Group.Nat.Defs
import Mathlib.Data.List.Nodup
import Mathlib.Data.List.Perm.Subperm
import Mathlib.Order.Bounds.Basic

/-!
# Fresh names

A name can be read as the number it was made from (`nameNumber_slotName`), so that names with
different numbers differ (`slotName_injective`). Among more numbers than there are reserved names one
has a name that is free: what a source yields next is not reserved (`slotName_nextNumber`), and comes
after all that the source has yielded before (`number_le_nextNumber`).
-/

namespace GrammarInduction

/-! ## Names as numbers -/

/-- A number with one more digit of base 26 at its end, given by its letter. -/
def addLetter (n : Nat) (c : Char) : Nat := 26 * n + (c.toNat - 'A'.toNat)

/-- The number of a name. -/
def nameNumber (name : String) : Nat := name.toList.foldl addLetter 0

theorem addLetter_letter {d : Nat} (n : Nat) (h : d < 26) : addLetter n (letter d) = 26 * n + d := by
  have hdigit : ∀ d < 26, (letter d).toNat - 'A'.toNat = d := by decide
  rw [addLetter, hdigit d h]

/-- The digits in front of others count as the number they are made from. -/
theorem foldl_base26 {fuel n : Nat} (h : n < 26 ^ fuel) (digits : List Char) :
    (base26 fuel n digits).foldl addLetter 0 = digits.foldl addLetter n := by
  induction fuel generalizing n digits with
  | zero =>
    obtain rfl : n = 0 := by simpa using h
    rfl
  | succ fuel ih =>
    unfold base26
    split
    next hn => rw [hn]
    · have hquotient : n / 26 < 26 ^ fuel := Nat.div_lt_of_lt_mul (by rwa [Nat.pow_succ'] at h)
      have hdigit : n % 26 < 26 := Nat.mod_lt n (by decide)
      rw [ih hquotient, List.foldl_cons, addLetter_letter _ hdigit, Nat.div_add_mod]

theorem nameNumber_slotName (n : Nat) : nameNumber (slotName n) = n := by
  have hfuel : n < 26 ^ (n.log2 + 1) :=
    Nat.lt_of_lt_of_le Nat.lt_log2_self (Nat.pow_le_pow_left (by decide) _)
  unfold slotName
  split
  next hn =>
    subst hn
    decide
  · rw [nameNumber, String.toList_ofList, foldl_base26 hfuel, List.foldl_nil]

/-- **Names with different numbers differ.** -/
theorem slotName_injective : Function.Injective slotName :=
  Function.LeftInverse.injective nameNumber_slotName

/-! ## Free names -/

namespace NameSource

/-- One of more names than are reserved is free. -/
theorem exists_free (source : NameSource) :
    ∃ n ∈ List.range' source.number (source.reserved.length + 1),
      slotName n ∉ source.reserved := by
  by_contra hnone
  push Not at hnone
  have hnodup : ((List.range' source.number (source.reserved.length + 1)).map slotName).Nodup :=
    List.Nodup.map slotName_injective List.nodup_range'
  have hsub : (List.range' source.number (source.reserved.length + 1)).map slotName ⊆
      source.reserved := by
    intro name hname
    obtain ⟨n, hn, rfl⟩ := List.mem_map.1 hname
    exact hnone n hn
  have hlength := (List.subperm_of_subset hnodup hsub).length_le
  rw [List.length_map, List.length_range'] at hlength
  omega

theorem find?_nextNumber (source : NameSource) :
    (List.range' source.number (source.reserved.length + 1)).find?
      (fun n => !source.reserved.contains (slotName n)) = some source.nextNumber := by
  obtain ⟨n, hn, hfree⟩ := source.exists_free
  obtain ⟨first, hfirst⟩ := Option.isSome_iff_exists.1
    (List.find?_isSome (p := fun n => !source.reserved.contains (slotName n)).2
      ⟨n, hn, by simpa using hfree⟩)
  simp only [nextNumber, hfirst, Option.getD_some]

/-- What a source yields next is not reserved. -/
theorem slotName_nextNumber (source : NameSource) :
    slotName source.nextNumber ∉ source.reserved := by
  simpa using List.find?_some source.find?_nextNumber

theorem number_le_nextNumber (source : NameSource) : source.number ≤ source.nextNumber :=
  (List.mem_range'_1.1 (List.mem_of_find?_eq_some source.find?_nextNumber)).1

/-- Names that are reserved one after the other are reserved with those before. -/
theorem mem_reserved_foldl {names : List String} {source : NameSource} {name : String} :
    name ∈ (names.foldl reserve source).reserved ↔ name ∈ names ∨ name ∈ source.reserved := by
  induction names generalizing source with
  | nil => simp
  | cons first names ih =>
    rw [List.foldl_cons, ih, reserve, List.mem_cons, List.mem_cons]
    tauto

/-! ## The search for a free name -/

/-- The source that tries the number after next. -/
def skip (source : NameSource) : NameSource := { source with number := source.number + 1 }

/-- A search for a free name ends with this name and this source. -/
inductive Yields : NameSource → String → NameSource → Prop
  | free {source : NameSource} (h : slotName source.number ∉ source.reserved) :
      Yields source (slotName source.number) source.skip
  | reserved {source after : NameSource} {name : String}
      (h : slotName source.number ∈ source.reserved) (rest : Yields source.skip name after) :
      Yields source name after

/-- The next number is the first one whose name is free. -/
theorem isLeast_nextNumber (source : NameSource) :
    IsLeast {n | source.number ≤ n ∧ slotName n ∉ source.reserved} source.nextNumber := by
  refine ⟨⟨source.number_le_nextNumber, source.slotName_nextNumber⟩, fun n hn => ?_⟩
  obtain ⟨-, -, hbefore⟩ := List.find?_range'_eq_some.1 source.find?_nextNumber
  by_contra hlt
  exact hn.2 (by simpa using hbefore n hn.1 (Nat.lt_of_not_le hlt))

theorem nextNumber_of_free {source : NameSource} (h : slotName source.number ∉ source.reserved) :
    source.nextNumber = source.number :=
  Nat.le_antisymm (source.isLeast_nextNumber.2 ⟨Nat.le_refl _, h⟩) source.number_le_nextNumber

theorem nextNumber_skip {source : NameSource} (h : slotName source.number ∈ source.reserved) :
    source.skip.nextNumber = source.nextNumber := by
  refine source.skip.isLeast_nextNumber.unique ⟨⟨?_, source.slotName_nextNumber⟩, fun n hn => ?_⟩
  · refine Nat.lt_of_le_of_ne source.number_le_nextNumber fun heq => ?_
    exact source.slotName_nextNumber (heq ▸ h)
  · exact source.isLeast_nextNumber.2 ⟨Nat.le_of_succ_le hn.1, hn.2⟩

theorem Yields.next_eq {source after : NameSource} {name : String} (h : source.Yields name after) :
    source.next = (name, after) := by
  induction h with
  | free h => rw [next, nextNumber_of_free h, skip]
  | reserved h _ ih =>
    rw [next, nextNumber_skip h] at ih
    exact ih

theorem yields_next (source : NameSource) : source.Yields source.next.1 source.next.2 := by
  -- The induction is on the numbers that are still to be passed over.
  obtain ⟨passed, hpassed⟩ := Nat.exists_eq_add_of_le source.number_le_nextNumber
  induction passed generalizing source with
  | zero =>
    have hfree := source.slotName_nextNumber
    rw [next, hpassed] at *
    exact .free hfree
  | succ passed ih =>
    have hreserved : slotName source.number ∈ source.reserved := by
      by_contra hfree
      have := nextNumber_of_free hfree
      omega
    have hrest : source.skip.nextNumber = source.skip.number + passed := by
      rw [nextNumber_skip hreserved, hpassed, skip, Nat.add_right_comm, Nat.add_assoc]
    have hskip := ih source.skip hrest
    rw [next, nextNumber_skip hreserved] at hskip
    exact .reserved hreserved hskip

/-- **The search for a free name ends**, with the next name. -/
theorem yields_iff {source after : NameSource} {name : String} :
    source.Yields name after ↔ source.next = (name, after) := by
  refine ⟨Yields.next_eq, fun h => ?_⟩
  have hyields := source.yields_next
  rwa [h] at hyields

/-! ## Calls -/

/-- What can be asked of a source. -/
inductive Call where
  | reserve (name : String)
  | fresh
  deriving DecidableEq, Repr

/-- The names that a source yields while calls are made one after the other, and the source after. -/
def perform : List Call → NameSource → List String × NameSource
  | [], source => ([], source)
  | .reserve name :: calls, source => perform calls (source.reserve name)
  | .fresh :: calls, source =>
    let (name, source) := source.next
    let (names, source) := perform calls source
    (name :: names, source)

/-- What calls of a source come to: they yield the names of the numbers listed, and reserve the names
listed. -/
structure Issued (before : NameSource) (numbers : List Nat) (reserved : List String)
    (after : NameSource) : Prop where
  le : before.number ≤ after.number
  ascending : numbers.Pairwise (· < ·)
  bounds : ∀ n ∈ numbers, before.number ≤ n ∧ n < after.number
  reserved : ∀ name, name ∈ after.reserved ↔ name ∈ reserved ∨ name ∈ before.reserved
  /-- A number is passed over only if its name is reserved. -/
  passed : ∀ n, before.number ≤ n → n < after.number → n ∈ numbers ∨ slotName n ∈ after.reserved

variable {before source after : NameSource} {numbers : List Nat} {reserved names : List String}

theorem issued_nil (source : NameSource) : Issued source [] [] source where
  le := Nat.le_refl _
  ascending := .nil
  bounds n hn := by cases hn
  reserved name := by simp
  passed n hle hlt := absurd hle (Nat.not_le_of_lt hlt)

theorem Issued.of_reserve {name : String} (h : Issued (source.reserve name) numbers reserved after) :
    Issued source numbers (name :: reserved) after where
  le := h.le
  ascending := h.ascending
  bounds := h.bounds
  reserved other := by
    rw [h.reserved, reserve, List.mem_cons, List.mem_cons]
    tauto
  passed := h.passed

theorem Issued.of_next (h : Issued source.next.2 numbers reserved after) :
    Issued source (source.nextNumber :: numbers) reserved after where
  le := Nat.le_trans source.number_le_nextNumber (Nat.le_of_succ_le h.le)
  ascending := List.pairwise_cons.2 ⟨fun n hn => (h.bounds n hn).1, h.ascending⟩
  bounds := by
    refine List.forall_mem_cons.2 ⟨⟨source.number_le_nextNumber, h.le⟩, fun n hn => ?_⟩
    obtain ⟨hle, hlt⟩ := h.bounds n hn
    exact ⟨Nat.le_trans source.number_le_nextNumber (Nat.le_of_succ_le hle), hlt⟩
  reserved := h.reserved
  passed n hle hlt := by
    rcases Nat.lt_trichotomy n source.nextNumber with hn | rfl | hn
    · refine .inr ((h.reserved _).2 (.inr ?_))
      by_contra hfree
      exact Nat.not_le_of_lt hn (source.isLeast_nextNumber.2 ⟨hle, hfree⟩)
    · exact .inl List.mem_cons_self
    · exact (h.passed n hn hlt).imp_left (.tail _)

/-- The names that calls reserve. -/
def reservations (calls : List Call) : List String :=
  calls.filterMap fun
    | .reserve name => some name
    | .fresh => none

theorem mem_reservations {calls : List Call} {name : String} :
    name ∈ reservations calls ↔ .reserve name ∈ calls := by
  rw [reservations, List.mem_filterMap]
  constructor
  · rintro ⟨call, hcall, hname⟩
    cases call with
    | reserve other => exact Option.some.inj hname ▸ hcall
    | fresh => cases hname
  · exact fun h => ⟨_, h, rfl⟩

/-- **What a run of calls comes to.** -/
theorem issued_perform (calls : List Call) (source : NameSource) :
    ∃ numbers, (perform calls source).1 = numbers.map slotName ∧
      Issued source numbers (reservations calls) (perform calls source).2 := by
  induction calls generalizing source with
  | nil => exact ⟨[], rfl, issued_nil source⟩
  | cons call calls ih =>
    cases call with
    | reserve name =>
      obtain ⟨numbers, hnames, hissued⟩ := ih (source.reserve name)
      exact ⟨numbers, hnames, hissued.of_reserve⟩
    | fresh =>
      obtain ⟨numbers, hnames, hissued⟩ := ih source.next.2
      refine ⟨source.nextNumber :: numbers, ?_, hissued.of_next⟩
      rw [List.map_cons, ← hnames]
      rfl

/-- A source that starts at the first number gets no further than by the names that it yields and those
that are reserved. -/
theorem Issued.number_le (h : Issued (skipping reserved) numbers names after) :
    after.number ≤ numbers.length + after.reserved.length := by
  have hsub : (List.range after.number).map slotName ⊆ numbers.map slotName ++ after.reserved := by
    intro name hname
    obtain ⟨n, hn, rfl⟩ := List.mem_map.1 hname
    rcases h.passed n (Nat.zero_le n) (List.mem_range.1 hn) with hn | hn
    · exact List.mem_append_left _ (List.mem_map_of_mem hn)
    · exact List.mem_append_right _ hn
  have hlength := (List.subperm_of_subset (List.nodup_range.map slotName_injective) hsub).length_le
  simpa using hlength

/-- **Fresh names never repeat or collide.** After any calls of a source with any names reserved, the
search for the next name ends. The name is not among those that are reserved by then, and it is none of
the names yielded before, all of which differ; for names with different numbers differ. The numbers go
no further than by one for each name that is yielded or reserved. -/
theorem fresh_names_never_repeat (reserved : List String) (calls : List Call) :
    let names := (perform calls (skipping reserved)).1
    let source := (perform calls (skipping reserved)).2
    (∀ name after, source.Yields name after ↔ source.next = (name, after)) ∧
      (∀ name, name ∈ source.reserved ↔ name ∈ reserved ∨ .reserve name ∈ calls) ∧
      source.next.1 ∉ source.reserved ∧ source.next.1 ∉ names ∧ names.Nodup ∧
      source.number ≤ names.length + source.reserved.length ∧ Function.Injective slotName := by
  obtain ⟨numbers, hnames, hissued⟩ := issued_perform calls (skipping reserved)
  intro names source
  have hnumbers : names = numbers.map slotName := hnames
  rw [hnumbers, List.length_map]
  refine ⟨fun _ _ => yields_iff, fun name => ?_, source.slotName_nextNumber, fun hmem => ?_, ?_,
    hissued.number_le, slotName_injective⟩
  · rw [hissued.reserved, mem_reservations, or_comm]
    rfl
  · obtain ⟨n, hn, heq⟩ := List.mem_map.1 hmem
    have hlt := Nat.lt_of_lt_of_le (hissued.bounds n hn).2 source.number_le_nextNumber
    exact Nat.ne_of_lt hlt (slotName_injective heq)
  · exact (hissued.ascending.imp Nat.ne_of_lt).map _ fun _ _ => slotName_injective.ne

end NameSource

end GrammarInduction
