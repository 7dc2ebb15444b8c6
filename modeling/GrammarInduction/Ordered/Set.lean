/-!
# Sets that remember the order of insertion

`OrderedSet α` is a finite set over an equality test `==`, kept in the order in which its members
came in. The member that came in first stands for all its equals: inserting an equal one changes
nothing (`OrderedSet.insert_of_contains`), inserting a new one puts it at the end
(`OrderedSet.toList_insert_of_not_contains`).

The equality test need not be `=`, so which of several equal values is kept can be seen.
-/

namespace GrammarInduction

universe u

/-- A finite set in order of insertion. -/
structure OrderedSet (α : Type u) [BEq α] where
  /-- The members, oldest first. -/
  toList : List α
  /-- No two members are equal. -/
  distinct : toList.Pairwise fun a b => (a == b) = false

namespace OrderedSet

variable {α : Type u} [BEq α]

/-- The set without members. -/
def empty : OrderedSet α := ⟨[], .nil⟩

instance : Inhabited (OrderedSet α) := ⟨empty⟩

/-- Whether some member equals `a`. -/
def contains (s : OrderedSet α) (a : α) : Bool :=
  s.toList.any (· == a)

def size (s : OrderedSet α) : Nat := s.toList.length

def isEmpty (s : OrderedSet α) : Bool := s.toList.isEmpty

/-- Adds `a` at the end unless an equal member is there. -/
def insert (s : OrderedSet α) (a : α) : OrderedSet α :=
  if h : s.contains a = true then s
  else
    { toList := s.toList ++ [a]
      distinct := by
        rw [List.pairwise_append]
        refine ⟨s.distinct, List.pairwise_singleton _ _, fun x hx y hy => ?_⟩
        obtain rfl := List.mem_singleton.1 hy
        simp only [contains, List.any_eq_true, not_exists, not_and] at h
        simpa using h x hx }

/-- Adds the members of a list one after the other. -/
def insertAll (s : OrderedSet α) (as : List α) : OrderedSet α :=
  as.foldl insert s

/-- The set of the members of a list, of equal ones the first. -/
def ofList (as : List α) : OrderedSet α :=
  empty.insertAll as

/-- Keeps the members that pass a test, in their order. -/
def filter (s : OrderedSet α) (p : α → Bool) : OrderedSet α :=
  ⟨s.toList.filter p, s.distinct.filter p⟩

/-- Takes out the members equal to `a`. -/
def erase (s : OrderedSet α) (a : α) : OrderedSet α :=
  s.filter fun b => !(b == a)

/-- Whether every member of `s` has an equal in `t`. -/
def subset (s t : OrderedSet α) : Bool :=
  s.toList.all t.contains

/-- Equality of sets: equally many members, and each of the first has an equal in the second. -/
def sameMembers (s t : OrderedSet α) : Bool :=
  s.size == t.size && s.subset t

/-- The number of members of `s` that have an equal in `t`. -/
def sharedWith (s t : OrderedSet α) : Nat :=
  s.toList.countP t.contains

/-- The only member of a set of one. -/
def only? (s : OrderedSet α) : Option α :=
  match s.toList with
  | [a] => some a
  | _ => none

/-! ## The list of members after each operation -/

@[simp] theorem toList_empty : (empty : OrderedSet α).toList = [] := rfl

theorem eq_of_toList_eq {s t : OrderedSet α} (h : s.toList = t.toList) : s = t := by
  cases s
  cases t
  simp_all

theorem insert_of_contains {s : OrderedSet α} {a : α} (h : s.contains a = true) :
    s.insert a = s := by
  simp [insert, h]

theorem toList_insert_of_not_contains {s : OrderedSet α} {a : α} (h : s.contains a = false) :
    (s.insert a).toList = s.toList ++ [a] := by
  simp [insert, h]

@[simp] theorem toList_filter (s : OrderedSet α) (p : α → Bool) :
    (s.filter p).toList = s.toList.filter p := rfl

@[simp] theorem insertAll_nil (s : OrderedSet α) : s.insertAll [] = s := rfl

@[simp] theorem insertAll_cons (s : OrderedSet α) (a : α) (as : List α) :
    s.insertAll (a :: as) = (s.insert a).insertAll as := rfl

theorem mem_of_mem_insert {s : OrderedSet α} {a b : α} (h : b ∈ (s.insert a).toList) :
    b ∈ s.toList ∨ b = a := by
  unfold insert at h
  split at h
  · exact .inl h
  · simpa using h

theorem mem_insert_of_mem {s : OrderedSet α} {a b : α} (h : b ∈ s.toList) :
    b ∈ (s.insert a).toList := by
  unfold insert
  split
  · exact h
  · simp [h]

theorem mem_insertAll_of_mem {s : OrderedSet α} {as : List α} {b : α} (h : b ∈ s.toList) :
    b ∈ (s.insertAll as).toList := by
  induction as generalizing s with
  | nil => exact h
  | cons a as ih => exact ih (mem_insert_of_mem h)

theorem mem_of_mem_insertAll {s : OrderedSet α} {as : List α} {b : α}
    (h : b ∈ (s.insertAll as).toList) : b ∈ s.toList ∨ b ∈ as := by
  induction as generalizing s with
  | nil => exact .inl h
  | cons a as ih =>
    rcases ih h with h | h
    · rcases mem_of_mem_insert h with h | h
      · exact .inl h
      · exact .inr (by simp [h])
    · exact .inr (by simp [h])

theorem mem_of_mem_ofList {as : List α} {b : α} (h : b ∈ (ofList as).toList) : b ∈ as := by
  rcases mem_of_mem_insertAll h with h | h
  · simp at h
  · exact h

theorem only?_eq_some_iff {s : OrderedSet α} {a : α} : s.only? = some a ↔ s.toList = [a] := by
  unfold only?
  split
  next b hb => simp [hb]
  next hne => exact ⟨fun h => (nomatch h), fun h => absurd h (hne a)⟩

theorem size_insert_le (s : OrderedSet α) (a : α) : (s.insert a).size ≤ s.size + 1 := by
  cases h : s.contains a with
  | true =>
    rw [insert_of_contains h]
    omega
  | false => simp [size, toList_insert_of_not_contains h]

theorem size_insertAll_le (s : OrderedSet α) (as : List α) :
    (s.insertAll as).size ≤ s.size + as.length := by
  induction as generalizing s with
  | nil => simp
  | cons a as ih =>
    have h := ih (s.insert a)
    have := s.size_insert_le a
    simp only [insertAll_cons, List.length_cons]
    omega

theorem size_ofList_le (as : List α) : (ofList as).size ≤ as.length := by
  simpa [ofList, size] using (empty : OrderedSet α).size_insertAll_le as

/-- Members of which no two are equal are all put at the end. -/
theorem toList_insertAll_of_distinct {s : OrderedSet α} {as : List α}
    (h : (s.toList ++ as).Pairwise fun a b => (a == b) = false) :
    (s.insertAll as).toList = s.toList ++ as := by
  induction as generalizing s with
  | nil => simp
  | cons a as ih =>
    have hnew : s.contains a = false := by
      simp only [contains, List.any_eq_false, Bool.not_eq_true]
      exact fun b hb => (List.pairwise_append.1 h).2.2 b hb a List.mem_cons_self
    have hinsert := toList_insert_of_not_contains hnew
    rw [insertAll_cons, ih (by simpa [hinsert] using h), hinsert, List.append_assoc]
    rfl

theorem toList_ofList_of_distinct {as : List α} (h : as.Pairwise fun a b => (a == b) = false) :
    (ofList as).toList = as :=
  toList_insertAll_of_distinct h

theorem insertAll_append (s : OrderedSet α) (as bs : List α) :
    s.insertAll (as ++ bs) = (s.insertAll as).insertAll bs :=
  List.foldl_append ..

/-! ## What a set contains, for an equivalence -/

theorem contains_iff {s : OrderedSet α} {a : α} :
    s.contains a = true ↔ ∃ b ∈ s.toList, (b == a) = true := by
  simp [contains]

@[simp] theorem contains_empty (a : α) : (empty : OrderedSet α).contains a = false := rfl

section Equivalence

variable [EquivBEq α]

theorem contains_of_mem {s : OrderedSet α} {a : α} (h : a ∈ s.toList) : s.contains a = true :=
  contains_iff.2 ⟨a, h, BEq.rfl⟩

theorem contains_congr {s : OrderedSet α} {a b : α} (h : (a == b) = true) :
    s.contains a = s.contains b := by
  rw [Bool.eq_iff_iff, contains_iff, contains_iff]
  exact ⟨fun ⟨c, hc, hca⟩ => ⟨c, hc, BEq.trans hca h⟩,
    fun ⟨c, hc, hcb⟩ => ⟨c, hc, BEq.trans hcb (BEq.symm h)⟩⟩

theorem contains_insert (s : OrderedSet α) (a b : α) :
    (s.insert a).contains b = (s.contains b || a == b) := by
  cases h : s.contains a with
  | true =>
    rw [insert_of_contains h]
    cases hab : a == b with
    | true => rw [← contains_congr hab, h]; rfl
    | false => simp
  | false => simp [contains, toList_insert_of_not_contains h]

theorem contains_insertAll (s : OrderedSet α) (as : List α) (b : α) :
    (s.insertAll as).contains b = (s.contains b || as.any (· == b)) := by
  induction as generalizing s with
  | nil => simp
  | cons a as ih => simp [ih, contains_insert, Bool.or_assoc]

theorem contains_ofList (as : List α) (b : α) : (ofList as).contains b = as.any (· == b) := by
  simp [ofList, contains_insertAll]

theorem contains_erase (s : OrderedSet α) (a b : α) :
    (s.erase a).contains b = (s.contains b && !(b == a)) := by
  rw [Bool.eq_iff_iff]
  simp only [erase, contains_iff, toList_filter, List.mem_filter, Bool.and_eq_true,
    Bool.not_eq_true']
  constructor
  · rintro ⟨c, ⟨hc, hca⟩, hcb⟩
    exact ⟨⟨c, hc, hcb⟩, by rw [← BEq.congr_left hcb, hca]⟩
  · rintro ⟨⟨c, hc, hcb⟩, hba⟩
    exact ⟨c, ⟨hc, by rw [BEq.congr_left hcb, hba]⟩, hcb⟩

end Equivalence

section Lawful

variable [LawfulBEq α]

theorem contains_iff_mem {s : OrderedSet α} {a : α} : s.contains a = true ↔ a ∈ s.toList := by
  simp [contains_iff]

theorem mem_insert {s : OrderedSet α} {a b : α} :
    b ∈ (s.insert a).toList ↔ b ∈ s.toList ∨ b = a := by
  rw [← contains_iff_mem, contains_insert, Bool.or_eq_true, contains_iff_mem, beq_iff_eq, eq_comm]

theorem mem_insertAll {s : OrderedSet α} {as : List α} {b : α} :
    b ∈ (s.insertAll as).toList ↔ b ∈ s.toList ∨ b ∈ as := by
  rw [← contains_iff_mem, contains_insertAll, Bool.or_eq_true, contains_iff_mem]
  simp

theorem mem_ofList {as : List α} {b : α} : b ∈ (ofList as).toList ↔ b ∈ as := by
  simp [ofList, mem_insertAll]

theorem nodup_toList (s : OrderedSet α) : s.toList.Nodup :=
  s.distinct.imp fun h => by simpa using h

end Lawful

end OrderedSet

end GrammarInduction
