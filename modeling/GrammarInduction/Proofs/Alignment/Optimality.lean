import GrammarInduction.Alignment
import Mathlib.Data.List.Forall2
import Mathlib.Data.List.Infix

/-!
# Listed alignments are the best ones

The table of `Alignment.row` holds, for every tail of the second sequence, an entry. What holds of
the entry of two empty sequences and is kept by each way to make an entry of others holds of the
entry of two whole sequences (`table_induct`).

What is shown in this way is that an entry is `Exact`: its cost is the least cost of an alignment, and
its walks are the alignments of that cost, in ascending order. It follows which alignments are listed,
how often and in what order (`alignments_optimal`).

The table runs over the reversed sequences, so that the walks of an entry are alignments read from the
last operation to the first (`valid_reverse_iff`), and it is read in this way that they ascend
(`Precedes`).
-/

namespace GrammarInduction.Alignment

/-! ## Alignments and their cost -/

section Alignments

variable {α : Type u} {x y : α} {xs ys xs' ys' : List α} {ops ops' : List EditOp}

/-- The cost is the number of operations that do not keep. -/
theorem cost_eq_countP (ops : List EditOp) : cost ops = ops.countP fun op => op ≠ .keep := by
  induction ops with
  | nil => rfl
  | cons op ops ih =>
    rw [cost, ih, List.countP_cons, Nat.add_comm]
    cases op <;> rfl

theorem cost_reverse (ops : List EditOp) : cost ops.reverse = cost ops := by
  rw [cost_eq_countP, cost_eq_countP, List.countP_reverse]

theorem Valid.append (h : Valid xs ys ops) (h' : Valid xs' ys' ops') :
    Valid (xs ++ xs') (ys ++ ys') (ops ++ ops') := by
  induction h with
  | nil => exact h'
  | keep x _ ih => exact .keep x ih
  | substitute hne _ ih => exact .substitute hne ih
  | delete x _ ih => exact .delete x ih
  | insert y _ ih => exact .insert y ih

/-- An alignment read from right to left. -/
theorem Valid.reverse (h : Valid xs ys ops) : Valid xs.reverse ys.reverse ops.reverse := by
  induction h with
  | nil => exact .nil
  | keep x _ ih => simpa using ih.append (.keep x .nil)
  | substitute hne _ ih => simpa using ih.append (.substitute hne .nil)
  | delete x _ ih => simpa using ih.append (.delete x .nil)
  | insert y _ ih => simpa using ih.append (.insert y .nil)

theorem valid_reverse_iff : Valid xs.reverse ys.reverse ops.reverse ↔ Valid xs ys ops :=
  ⟨fun h => by simpa using h.reverse, Valid.reverse⟩

/-! ### The first operation -/

theorem valid_nil_nil_iff : Valid ([] : List α) [] ops ↔ ops = [] := by
  constructor
  · rintro ⟨⟩
    rfl
  · rintro rfl
    exact .nil

theorem valid_nil_cons_iff : Valid [] (y :: ys) ops ↔ ∃ o, Valid [] ys o ∧ .insert :: o = ops := by
  constructor
  · rintro ⟨⟩
    next ops h => exact ⟨ops, h, rfl⟩
  · rintro ⟨o, h, rfl⟩
    exact .insert y h

theorem valid_cons_nil_iff : Valid (x :: xs) [] ops ↔ ∃ o, Valid xs [] o ∧ .delete :: o = ops := by
  constructor
  · rintro ⟨⟩
    next ops h => exact ⟨ops, h, rfl⟩
  · rintro ⟨o, h, rfl⟩
    exact .delete x h

theorem valid_cons_cons_iff [DecidableEq α] : Valid (x :: xs) (y :: ys) ops ↔
    (∃ o, Valid xs ys o ∧ .diagonal (decide (x = y)) :: o = ops) ∨
      (∃ o, Valid xs (y :: ys) o ∧ .delete :: o = ops) ∨
        ∃ o, Valid (x :: xs) ys o ∧ .insert :: o = ops := by
  constructor
  · rintro ⟨⟩
    next ops h => exact .inl ⟨ops, h, by simp [EditOp.diagonal]⟩
    next ops hne h => exact .inl ⟨ops, h, by simp [EditOp.diagonal, hne]⟩
    next ops h => exact .inr (.inl ⟨ops, h, rfl⟩)
    next ops h => exact .inr (.inr ⟨ops, h, rfl⟩)
  · rintro (⟨o, h, rfl⟩ | ⟨o, h, rfl⟩ | ⟨o, h, rfl⟩)
    · by_cases hxy : x = y
      · subst hxy
        simpa [EditOp.diagonal] using Valid.keep x h
      · simpa [EditOp.diagonal, hxy] using Valid.substitute hxy h
    · exact .delete x h
    · exact .insert y h

end Alignments

/-! ## Order -/

/-- The place of an operation among those that can be taken at one point: first a step through both
sequences, then a deletion, then an insertion. -/
def rank : EditOp → Nat
  | .keep => 0
  | .substitute => 0
  | .delete => 1
  | .insert => 2

/-- The lexicographic order of operations. -/
def Precedes : List EditOp → List EditOp → Prop := List.Lex fun a b => rank a < rank b

theorem Precedes.cons {as bs : List EditOp} (h : Precedes as bs) (op : EditOp) :
    Precedes (op :: as) (op :: bs) := List.Lex.cons h

theorem precedes_of_rank_lt {a b : EditOp} (h : rank a < rank b) (as bs : List EditOp) :
    Precedes (a :: as) (b :: bs) := List.Lex.rel h

theorem not_precedes_self (ops : List EditOp) : ¬ Precedes ops ops := by
  intro h
  induction ops with
  | nil => cases h
  | cons op ops ih =>
    cases h with
    | cons h => exact ih h
    | rel h => exact Nat.lt_irrefl _ h

/-- Lists that begin with operations of ascending rank ascend if what follows the operations does. -/
theorem pairwise_precedes_append {a : EditOp} {as : List (List EditOp)} {rest : List (List EditOp)}
    (has : as.Pairwise Precedes) (hrest : rest.Pairwise Precedes)
    (hrank : ∀ ops ∈ rest, ∃ b o, ops = b :: o ∧ rank a < rank b) :
    (as.map (a :: ·) ++ rest).Pairwise Precedes := by
  refine List.pairwise_append.2 ⟨List.pairwise_map.2 (has.imp fun h => h.cons a), hrest, ?_⟩
  intro ops hops ops' hops'
  obtain ⟨o, -, rfl⟩ := List.mem_map.1 hops
  obtain ⟨b, o', rfl, hlt⟩ := hrank ops' hops'
  exact precedes_of_rank_lt hlt o o'

/-! ## Entries -/

/-- An entry holds the least cost of an alignment, and its walks are the alignments of that cost, in
ascending order. -/
structure Exact {α : Type u} (xs ys : List α) (e : Entry) : Prop where
  least : ∀ ops, Valid xs ys ops → e.cost ≤ cost ops
  attained : ∃ ops, Valid xs ys ops ∧ cost ops = e.cost
  mem_iff : ∀ ops, ops ∈ e.walks.backwards ↔ Valid xs ys ops ∧ cost ops = e.cost
  ascending : e.walks.backwards.Pairwise Precedes

/-- The walks of an entry, if they reach a cost with one more operation. -/
def reaching (least : Nat) (op : EditOp) (e : Entry) : Walks :=
  if e.cost + op.cost = least then e.walks else .none

section Entries

variable {α : Type u} {x y : α} {xs ys : List α} {d e i : Entry} {op : EditOp} {least : Nat}

theorem Exact.le_cost_cons (h : Exact xs ys e) (op : EditOp) {o : List EditOp} (ho : Valid xs ys o) :
    e.cost + op.cost ≤ cost (op :: o) := by
  have := h.least o ho
  rw [cost]
  omega

theorem Exact.exists_cost_cons_eq (h : Exact xs ys e) (op : EditOp) :
    ∃ o, Valid xs ys o ∧ cost (op :: o) = e.cost + op.cost := by
  obtain ⟨o, ho, heq⟩ := h.attained
  exact ⟨o, ho, by rw [cost, heq, Nat.add_comm]⟩

/-- What an operation makes of the walks that reach the least cost with it are the alignments of that
cost that begin with it. -/
theorem Exact.mem_reaching_iff (h : Exact xs ys e) (hleast : least ≤ e.cost + op.cost)
    {ops : List EditOp} : ops ∈ (reaching least op e).backwards.map (op :: ·) ↔
      (∃ o, Valid xs ys o ∧ op :: o = ops) ∧ cost ops = least := by
  rw [List.mem_map]
  constructor
  · rintro ⟨o, ho, rfl⟩
    unfold reaching at ho
    split at ho
    next heq =>
      obtain ⟨hvalid, hcost⟩ := (h.mem_iff o).1 ho
      exact ⟨⟨o, hvalid, rfl⟩, by rw [cost, hcost, ← heq, Nat.add_comm]⟩
    · cases ho
  · rintro ⟨⟨o, hvalid, rfl⟩, hcost⟩
    have hle := h.least o hvalid
    rw [cost] at hcost
    refine ⟨o, ?_, rfl⟩
    rw [reaching, if_pos (by omega), h.mem_iff]
    exact ⟨hvalid, by omega⟩

theorem Exact.ascending_reaching (h : Exact xs ys e) (least : Nat) (op : EditOp) :
    (reaching least op e).backwards.Pairwise Precedes := by
  unfold reaching
  split
  · exact h.ascending
  · exact .nil

theorem exact_start : Exact ([] : List α) [] Entry.start where
  least ops _ := Nat.zero_le _
  attained := ⟨[], .nil, rfl⟩
  mem_iff ops := by
    rw [valid_nil_nil_iff, Entry.start, Walks.backwards, List.mem_singleton]
    exact ⟨fun h => ⟨h, h ▸ rfl⟩, And.left⟩
  ascending := List.pairwise_singleton _ _

/-- Where every alignment begins with the same operation. -/
theorem Exact.step (h : Exact xs ys e) {xs' ys' : List α} {e' : Entry}
    (hvalid : ∀ ops, Valid xs' ys' ops ↔ ∃ o, Valid xs ys o ∧ op :: o = ops)
    (hcost : e'.cost = e.cost + op.cost)
    (hwalks : e'.walks.backwards = e.walks.backwards.map (op :: ·)) : Exact xs' ys' e' where
  least ops hops := by
    obtain ⟨o, ho, rfl⟩ := (hvalid ops).1 hops
    exact hcost ▸ h.le_cost_cons op ho
  attained := by
    obtain ⟨o, ho, heq⟩ := h.exists_cost_cons_eq op
    exact ⟨op :: o, (hvalid _).2 ⟨o, ho, rfl⟩, heq.trans hcost.symm⟩
  mem_iff ops := by
    have hreaching : reaching e'.cost op e = e.walks := if_pos hcost.symm
    rw [hvalid, hwalks, ← hreaching]
    exact h.mem_reaching_iff (Nat.le_of_eq hcost)
  ascending := by
    rw [hwalks]
    exact List.pairwise_map.2 (h.ascending.imp fun h => h.cons op)

theorem Exact.delete (h : Exact xs [] e) : Exact (x :: xs) [] e.delete :=
  h.step (fun _ => valid_cons_nil_iff) rfl (by simp [Entry.delete, Walks.backwards])

theorem Exact.insert (h : Exact [] ys e) : Exact [] (y :: ys) e.insert :=
  h.step (fun _ => valid_nil_cons_iff) rfl (by simp [Entry.insert, Walks.backwards])

theorem Exact.best [DecidableEq α] (hd : Exact xs ys d) (he : Exact xs (y :: ys) e)
    (hi : Exact (x :: xs) ys i) :
    Exact (x :: xs) (y :: ys) (Entry.best (decide (x = y)) d e i) := by
  generalize hop : EditOp.diagonal (decide (x = y)) = op
  generalize hleast : min (d.cost + op.cost)
    (min (e.cost + EditOp.delete.cost) (i.cost + EditOp.insert.cost)) = least
  have hvalid (ops : List EditOp) : Valid (x :: xs) (y :: ys) ops ↔
      (∃ o, Valid xs ys o ∧ op :: o = ops) ∨ (∃ o, Valid xs (y :: ys) o ∧ .delete :: o = ops) ∨
        ∃ o, Valid (x :: xs) ys o ∧ .insert :: o = ops := hop ▸ valid_cons_cons_iff
  have hcost : (Entry.best (decide (x = y)) d e i).cost = least := by
    rw [← hleast, ← hop]
    rfl
  have hwalks : (Entry.best (decide (x = y)) d e i).walks.backwards =
      (reaching least op d).backwards.map (op :: ·) ++
        ((reaching least .delete e).backwards.map (.delete :: ·) ++
          (reaching least .insert i).backwards.map (.insert :: ·)) := by
    rw [← hleast, ← hop]
    exact List.append_assoc _ _ _
  refine ⟨fun ops hops => ?_, ?_, fun ops => ?_, ?_⟩
  · rw [hcost]
    rcases (hvalid ops).1 hops with ⟨o, ho, rfl⟩ | ⟨o, ho, rfl⟩ | ⟨o, ho, rfl⟩
    · have := hd.le_cost_cons op ho
      omega
    · have := he.le_cost_cons .delete ho
      omega
    · have := hi.le_cost_cons .insert ho
      omega
  · simp only [hcost, hvalid]
    obtain h | h | h : least = d.cost + op.cost ∨ least = e.cost + EditOp.delete.cost ∨
        least = i.cost + EditOp.insert.cost := by omega
    · obtain ⟨o, ho, heq⟩ := hd.exists_cost_cons_eq op
      exact ⟨_, .inl ⟨o, ho, rfl⟩, heq.trans h.symm⟩
    · obtain ⟨o, ho, heq⟩ := he.exists_cost_cons_eq .delete
      exact ⟨_, .inr (.inl ⟨o, ho, rfl⟩), heq.trans h.symm⟩
    · obtain ⟨o, ho, heq⟩ := hi.exists_cost_cons_eq .insert
      exact ⟨_, .inr (.inr ⟨o, ho, rfl⟩), heq.trans h.symm⟩
  · rw [hcost, hwalks, hvalid, List.mem_append, List.mem_append, hd.mem_reaching_iff (by omega),
      he.mem_reaching_iff (by omega), hi.mem_reaching_iff (by omega), ← or_and_right, ← or_and_right]
  · have hrank : rank op = 0 := by
      rw [← hop]
      cases decide (x = y) <;> rfl
    rw [hwalks]
    refine pairwise_precedes_append (hd.ascending_reaching least op)
      (pairwise_precedes_append (he.ascending_reaching least .delete) ?_ ?_) ?_
    · exact List.pairwise_map.2 ((hi.ascending_reaching least .insert).imp fun h => h.cons .insert)
    · rintro ops hops
      obtain ⟨o, -, rfl⟩ := List.mem_map.1 hops
      exact ⟨.insert, o, rfl, by decide⟩
    · rintro ops hops
      rcases List.mem_append.1 hops with hops | hops
      · obtain ⟨o, -, rfl⟩ := List.mem_map.1 hops
        exact ⟨.delete, o, rfl, hrank ▸ by decide⟩
      · obtain ⟨o, -, rfl⟩ := List.mem_map.1 hops
        exact ⟨.insert, o, rfl, hrank ▸ by decide⟩

end Entries

/-! ## The table -/

/-- A row has an entry with some property for each tail of the second sequence. -/
def RowOf {α : Type u} (P : List α → Entry → Prop) (ys : List α) (row : Entry × List Entry) : Prop :=
  List.Forall₂ P ys.tails (row.1 :: row.2)

section Table

variable {α : Type u} {P : List α → List α → Entry → Prop} {Q : List α → Entry → Prop}

theorem rowOf_nil_iff {e : Entry} {es : List Entry} : RowOf Q [] (e, es) ↔ Q [] e ∧ es = [] := by
  simp [RowOf]

theorem rowOf_cons_iff {y : α} {ys : List α} {e : Entry} {es : List Entry} :
    RowOf Q (y :: ys) (e, es) ↔ Q (y :: ys) e ∧ ∃ e' es', es = e' :: es' ∧ RowOf Q ys (e', es') := by
  rw [RowOf, List.tails_cons, List.forall₂_cons]
  refine and_congr_right fun _ => ⟨fun h => ?_, ?_⟩
  · cases es with
    | nil => simpa using h.length_eq
    | cons e' es' => exact ⟨e', es', rfl, h⟩
  · rintro ⟨e', es', rfl, h⟩
    exact h

theorem RowOf.head {ys : List α} {row : Entry × List Entry} (h : RowOf Q ys row) : Q ys row.1 := by
  cases ys with
  | nil => exact (rowOf_nil_iff.1 h).1
  | cons y ys => exact (rowOf_cons_iff.1 h).1

theorem rowOf_firstRow (start : Q [] .start)
    (insert : ∀ {y ys e}, Q ys e → Q (y :: ys) e.insert) (ys : List α) : RowOf Q ys (firstRow ys) := by
  induction ys with
  | nil => exact rowOf_nil_iff.2 ⟨start, rfl⟩
  | cons y ys ih => exact rowOf_cons_iff.2 ⟨insert ih.head, _, _, rfl, ih⟩

variable [DecidableEq α]
  (delete : ∀ {x xs e}, P xs [] e → P (x :: xs) [] e.delete)
  (best : ∀ {x y xs ys d e i}, P xs ys d → P xs (y :: ys) e → P (x :: xs) ys i →
    P (x :: xs) (y :: ys) (Entry.best (decide (x = y)) d e i))

include delete best

theorem RowOf.nextRow {x : α} {xs ys : List α} {above : Entry} {rest : List Entry}
    (h : RowOf (P xs) ys (above, rest)) : RowOf (P (x :: xs)) ys (nextRow x ys above rest) := by
  induction ys generalizing above rest with
  | nil => exact rowOf_nil_iff.2 ⟨delete (rowOf_nil_iff.1 h).1, rfl⟩
  | cons y ys ih =>
    obtain ⟨habove, across, rest, rfl, hrest⟩ := rowOf_cons_iff.1 h
    have hnext := ih hrest
    exact rowOf_cons_iff.2 ⟨best hrest.head habove hnext.head, _, _, rfl, hnext⟩

/-- What holds of the entry of empty sequences, and is kept by each way to make an entry of others,
holds of the entry of two whole sequences. -/
theorem table_induct (start : P [] [] .start) (insert : ∀ {y ys e}, P [] ys e → P [] (y :: ys) e.insert)
    (xs ys : List α) : P xs.reverse ys.reverse (table xs ys) := by
  suffices h : RowOf (P xs.reverse) ys.reverse (row ys.reverse xs.reverse) from h.head
  induction xs.reverse with
  | nil => exact rowOf_firstRow start insert ys.reverse
  | cons x xs ih => exact ih.nextRow delete best

end Table

/-! ## Listed alignments -/

variable {α : Type u} [DecidableEq α]

theorem exact_table (xs ys : List α) : Exact xs.reverse ys.reverse (table xs ys) :=
  table_induct .delete .best exact_start .insert xs ys

/-- Some alignment has the distance as its cost. -/
theorem exists_cost_eq_distance (xs ys : List α) : ∃ ops, Valid xs ys ops ∧ cost ops = distance xs ys := by
  obtain ⟨ops, hops, hcost⟩ := (exact_table xs ys).attained
  exact ⟨ops.reverse, by simpa using hops.reverse, (cost_reverse ops).trans hcost⟩

/-- No alignment costs less than the distance. -/
theorem distance_le_cost {xs ys : List α} {ops : List EditOp} (h : Valid xs ys ops) :
    distance xs ys ≤ cost ops := by
  rw [← cost_reverse]
  exact (exact_table xs ys).least ops.reverse h.reverse

theorem mem_alignments_iff {xs ys : List α} {ops : List EditOp} :
    ops ∈ alignments none xs ys ↔ Valid xs ys ops ∧ cost ops = distance xs ys := by
  rw [alignments, List.mem_map_of_involutive List.reverse_involutive, (exact_table xs ys).mem_iff,
    valid_reverse_iff, cost_reverse, distance]

/-- **Every listed alignment is valid**, with or without a limit. -/
theorem valid_of_mem_alignments {limit : Option Nat} {xs ys : List α} {ops : List EditOp}
    (h : ops ∈ alignments limit xs ys) : Valid xs ys ops := by
  have hall : ops ∈ alignments none xs ys := by
    cases limit with
    | none => exact h
    | some limit => exact List.mem_of_mem_take (alignments_some limit xs ys ▸ h)
  exact (mem_alignments_iff.1 hall).1

/-- **The alignments listed are exactly the best ones.** The distance is the least cost of an alignment
that goes through both sequences, which is the number of its operations that do not keep. The alignments
of that cost are listed, each once, and they ascend when read from the last operation to the first. -/
theorem alignments_optimal (xs ys : List α) :
    ((∃ ops, Valid xs ys ops ∧ ops.countP (· ≠ .keep) = distance xs ys) ∧
      ∀ ops, Valid xs ys ops → distance xs ys ≤ ops.countP (· ≠ .keep)) ∧
    (∀ ops, ops ∈ alignments none xs ys ↔
      Valid xs ys ops ∧ ops.countP (· ≠ .keep) = distance xs ys) ∧
    (alignments none xs ys).Nodup ∧
    (alignments none xs ys).Pairwise fun a b => Precedes a.reverse b.reverse := by
  have hascending : (alignments none xs ys).Pairwise fun a b => Precedes a.reverse b.reverse := by
    refine List.pairwise_map.2 ((exact_table xs ys).ascending.imp fun {a b} h => ?_)
    rwa [List.reverse_reverse, List.reverse_reverse]
  simp only [← cost_eq_countP]
  refine ⟨⟨exists_cost_eq_distance xs ys, fun ops => distance_le_cost⟩,
    fun ops => mem_alignments_iff, ?_, hascending⟩
  refine hascending.imp fun {a b} h heq => ?_
  exact not_precedes_self _ (heq ▸ h)

end GrammarInduction.Alignment
