import GrammarInduction.Proofs.Template.Covering
import GrammarInduction.Template.Filling

/-!
# Fillings are found exactly

`Fills main tuple other` says that a tuple has a value for each occurrence of a slot in `main`, and that
`other` is what putting them in gives. It can be taken apart token by token, and so covering and the
tuples that `tuples` lists are each compared with it by induction on `main`.

* `covers_iff_exists_fills`: what is covered is what some tuple gives.
* `mem_tuples_iff`, `pairwise_tuples`: the tuples that give the other template, in lexicographic order of
  the lengths of their values (`LengthsBefore`). Tuples that come one before the other are different even up
  to the numbers of anonymous slots.
* `Attempt.completions_eq`: an attempt of the search leads to the tuples that its ways to go on lead to, in
  this order. What is pruned leads to none.
* `search_eq`: so the search finds what the attempts on its stack lead to, and from the start that is all
  of `tuples`, none twice (`fillings_eq_tuples`).
* `mem_fillings_of_bestFilling?`: the best filling is one of them.
-/

namespace GrammarInduction.Template

open Cover

variable {main other front back tokens : List Token} {tuple : List Template} {s : Slot} {text : String}

/-! ## What a tuple gives -/

/-- A value for each occurrence of a slot, and what putting the values in gives. -/
def Fills (main : List Token) (tuple : List Template) (other : List Token) : Prop :=
  (main.filterMap Token.slot?).length = tuple.length ∧ fillTokens main tuple = other

theorem fillWith_eq_ok_iff {t u : Template} :
    t.fillWith tuple = .ok u ↔ Fills t.tokens tuple u.tokens := by
  obtain ⟨ts⟩ := t
  obtain ⟨us⟩ := u
  rw [fillWith, Fills, slots]
  split <;> simp_all

theorem fills_nil_iff : Fills [] tuple other ↔ tuple = [] ∧ other = [] := by
  cases tuple <;> simp [Fills, fillTokens, eq_comm]

theorem fills_literal_iff : Fills (.literal text :: main) tuple other ↔
    ∃ back, other = .literal text :: back ∧ Fills main tuple back := by
  simp only [Fills, fillTokens, List.filterMap_cons, Token.slot?]
  constructor
  · rintro ⟨hlength, rfl⟩
    exact ⟨_, rfl, hlength, rfl⟩
  · rintro ⟨back, rfl, hlength, rfl⟩
    exact ⟨hlength, rfl⟩

theorem fills_slot_iff : Fills (.slot s :: main) tuple other ↔
    ∃ value values back,
      tuple = value :: values ∧ other = value.tokens ++ back ∧ Fills main values back := by
  simp only [Fills, List.filterMap_cons, Token.slot?, List.length_cons]
  constructor
  · rintro ⟨hlength, rfl⟩
    obtain ⟨value, values, rfl⟩ := List.exists_cons_of_length_eq_add_one hlength.symm
    exact ⟨value, values, _, rfl, rfl, by simpa using hlength, rfl⟩
  · rintro ⟨value, values, back, rfl, rfl, hlength, rfl⟩
    exact ⟨by simp [hlength], rfl⟩

/-- **What is covered is what some tuple gives.** -/
theorem covers_iff_exists_fills : Covers main other ↔ ∃ tuple, Fills main tuple other := by
  induction main generalizing other with
  | nil => simp [covers_nil_iff, fills_nil_iff]
  | cons token main ih =>
    cases token with
    | literal text =>
      simp only [covers_literal_iff, fills_literal_iff, ih]
      exact ⟨fun ⟨back, hback, tuple, h⟩ => ⟨tuple, back, hback, h⟩,
        fun ⟨tuple, back, hback, h⟩ => ⟨back, hback, tuple, h⟩⟩
    | slot s =>
      simp only [covers_slot_iff, fills_slot_iff, ih]
      constructor
      · rintro ⟨front, back, rfl, tuple, h⟩
        exact ⟨⟨front⟩ :: tuple, ⟨front⟩, tuple, back, rfl, rfl, h⟩
      · rintro ⟨_, value, values, back, rfl, rfl, h⟩
        exact ⟨value.tokens, back, rfl, values, h⟩

/-! ## The tuples in order -/

/-- The ways to cut a list in two, the shortest first part first. -/
def cuts : List Token → List (List Token × List Token)
  | [] => [([], [])]
  | t :: rest => ([], t :: rest) :: (cuts rest).map fun (front, back) => (t :: front, back)

/-- The tuples that give `other`, where the first slot takes in each part of it in turn. -/
def tuples : List Token → List Token → List (List Template)
  | [], [] => [[]]
  | [], _ :: _ => []
  | .literal _ :: _, [] => []
  | .literal text :: main, t :: other => if t = .literal text then tuples main other else []
  | .slot _ :: main, other =>
    (cuts other).flatMap fun (front, back) => (tuples main back).map fun values => ⟨front⟩ :: values

theorem mem_cuts_iff : (front, back) ∈ cuts tokens ↔ tokens = front ++ back := by
  induction tokens generalizing front with
  | nil => simp [cuts]
  | cons t tokens ih =>
    cases front with
    | nil => simp [cuts, eq_comm]
    | cons u front => simp [cuts, ih, eq_comm, and_comm]

theorem mem_tuples_slot_iff : tuple ∈ tuples (.slot s :: main) other ↔
    ∃ front back values,
      tuple = ⟨front⟩ :: values ∧ other = front ++ back ∧ values ∈ tuples main back := by
  simp only [tuples, List.mem_flatMap, Prod.exists, mem_cuts_iff, List.mem_map]
  constructor
  · rintro ⟨front, back, rfl, values, hvalues, rfl⟩
    exact ⟨front, back, values, rfl, rfl, hvalues⟩
  · rintro ⟨front, back, values, rfl, rfl, hvalues⟩
    exact ⟨front, back, rfl, values, hvalues, rfl⟩

/-- **The tuples are those that give the other template.** -/
theorem mem_tuples_iff : tuple ∈ tuples main other ↔ Fills main tuple other := by
  induction main generalizing tuple other with
  | nil => cases other <;> simp [tuples, fills_nil_iff]
  | cons token main ih =>
    cases token with
    | literal text =>
      rw [fills_literal_iff]
      cases other with
      | nil => simp [tuples]
      | cons t other =>
        rw [tuples]
        split
        next heq => simp [heq, ih]
        next hne => simp [hne]
    | slot s =>
      rw [mem_tuples_slot_iff, fills_slot_iff]
      constructor
      · rintro ⟨front, back, values, rfl, rfl, hvalues⟩
        exact ⟨⟨front⟩, values, back, rfl, rfl, ih.1 hvalues⟩
      · rintro ⟨value, values, back, rfl, rfl, hvalues⟩
        exact ⟨value.tokens, back, values, rfl, rfl, ih.2 hvalues⟩

theorem tuples_ne_nil_iff : tuples main other ≠ [] ↔ coversTokens main other = true := by
  simp only [coversTokens_iff, covers_iff_exists_fills, ← mem_tuples_iff]
  exact ⟨List.exists_mem_of_ne_nil _, fun ⟨_, h⟩ => List.ne_nil_of_mem h⟩

/-- The lexicographic order of the lengths of values. -/
def LengthsBefore (a b : List Template) : Prop :=
  List.Lex (· < ·) (a.map Template.length) (b.map Template.length)

theorem LengthsBefore.not_beq {a b : List Template} (h : LengthsBefore a b) : (a == b) = false := by
  rw [Bool.eq_false_iff]
  intro hbeq
  induction a generalizing b with
  | nil =>
    cases b with
    | nil => cases h
    | cons v b => cases hbeq
  | cons u a ih =>
    cases b with
    | nil => cases h
    | cons v b =>
      obtain ⟨huv, hab⟩ : (u == v) = true ∧ (a == b) = true := by simpa using hbeq
      rw [LengthsBefore, List.map_cons, List.map_cons, length_eq_of_beq huv] at h
      cases h with
      | cons h => exact ih h hab
      | rel h => exact Nat.lt_irrefl _ h

theorem pairwise_cuts (tokens : List Token) :
    (cuts tokens).Pairwise fun c d => c.1.length < d.1.length := by
  induction tokens with
  | nil => exact List.pairwise_singleton _ _
  | cons t tokens ih =>
    refine List.pairwise_cons.2 ⟨fun c hc => ?_, List.pairwise_map.2 (ih.imp Nat.succ_lt_succ)⟩
    obtain ⟨c, -, rfl⟩ := List.mem_map.1 hc
    exact Nat.succ_pos _

/-- **The tuples come in lexicographic order of the lengths of their values.** -/
theorem pairwise_tuples (main other : List Token) : (tuples main other).Pairwise LengthsBefore := by
  induction main generalizing other with
  | nil => cases other <;> simp [tuples]
  | cons token main ih =>
    cases token with
    | literal text =>
      cases other with
      | nil => exact .nil
      | cons t other =>
        rw [tuples]
        split
        · exact ih other
        · exact .nil
    | slot s =>
      rw [tuples, List.pairwise_flatMap]
      constructor
      · rintro ⟨front, back⟩ -
        exact List.pairwise_map.2 ((ih back).imp fun h => .cons h)
      · refine (pairwise_cuts other).imp ?_
        rintro ⟨front, back⟩ ⟨front', back'⟩ hlt a ha b hb
        obtain ⟨values, -, rfl⟩ := List.mem_map.1 ha
        obtain ⟨values', -, rfl⟩ := List.mem_map.1 hb
        exact .rel hlt

/-! ## What the search finds -/

theorem takeIn_concat (values : List Template) (value : Template) (t : Token) :
    takeIn (values ++ [value]) t = values ++ [⟨value.tokens ++ [t]⟩] := by
  simp [takeIn]

/-- A value that is begun takes in tokens one by one. -/
theorem foldl_takeIn (values : List Template) (value : Template) (front : List Token) :
    front.foldl takeIn (values ++ [value]) = values ++ [⟨value.tokens ++ front⟩] := by
  induction front generalizing value with
  | nil => simp
  | cons t front ih => simp [takeIn_concat, ih]

namespace Attempt

/-- The values of an attempt with those for what is left: at a slot, the first of these goes on with the
value that has been begun. -/
def complete (a : Attempt) (rest : List Template) : List Template :=
  match a.main, rest with
  | .slot _ :: _, value :: rest => value.tokens.foldl takeIn a.begun ++ rest
  | _, _ => a.values ++ rest

/-- The tuples that an attempt leads to. -/
def completions (a : Attempt) : List (List Template) := (tuples a.main a.other).map a.complete

theorem completions_of_closed (main other : List Token) (values : List Template) :
    completions ⟨main, other, values, false⟩ = (tuples main other).map (values ++ ·) := by
  refine List.map_congr_left fun rest _ => ?_
  unfold complete
  split
  · simp [begun, foldl_takeIn]
  · rfl

theorem completions_literal (other : List Token) (values : List Template) (isOpen : Bool) :
    completions ⟨.literal text :: main, .literal text :: other, values, isOpen⟩ =
      (tuples main other).map (values ++ ·) := by
  rw [completions, tuples, if_pos rfl]
  rfl

theorem completions_slot (other : List Token) (values : List Template) (isOpen : Bool) :
    completions ⟨.slot s :: main, other, values, isOpen⟩ =
      (cuts other).flatMap fun (front, back) => (tuples main back).map
        (front.foldl takeIn (begun ⟨.slot s :: main, other, values, isOpen⟩) ++ ·) := by
  simp only [completions, tuples, List.map_flatMap, List.map_map]
  rfl

theorem completions_of_not_viable {a : Attempt} (h : a.viable = false) : a.completions = [] := by
  have hnone : tuples a.main a.other = [] := by
    by_contra hne
    simp [viable, tuples_ne_nil_iff.1 hne] at h
  rw [completions, hnone, List.map_nil]

/-- The values of an attempt that has come to the end. -/
def finished (a : Attempt) : List (List Template) :=
  if a.main.isEmpty && a.other.isEmpty then [a.values] else []

/-- Nothing is lost by going on with the viable attempts alone. -/
theorem flatMap_completions_next (a : Attempt) :
    a.next.flatMap completions = a.branches.flatMap completions := by
  unfold next
  induction a.branches with
  | nil => rfl
  | cons b bs ih =>
    rw [List.filter_cons, List.flatMap_cons, ← ih]
    cases hb : b.viable with
    | true => rfl
    | false => rw [completions_of_not_viable hb]; rfl

/-- **One step of the search** loses no tuple and puts none in another place. -/
theorem completions_eq (a : Attempt) :
    a.completions = a.finished ++ a.next.flatMap completions := by
  rw [flatMap_completions_next]
  obtain ⟨main, other, values, isOpen⟩ := a
  rcases main with _ | ⟨text | s, main⟩
  · cases other <;> simp [completions, tuples, complete, finished, branches]
  · rcases other with _ | ⟨t, other⟩
    · simp [completions, tuples, finished, branches]
    · by_cases ht : t = .literal text
      · simp [ht, completions_literal, completions_of_closed, finished, branches]
      · simp [ht, completions, tuples, finished, branches]
  · rcases other with _ | ⟨t, other⟩
    · simp [completions_slot, completions_of_closed, cuts, finished, branches]
    · simp [completions_slot, completions_of_closed, cuts, finished, branches, List.flatMap_map, begun]

end Attempt

/-- **The search finds what the attempts on its stack lead to**, in their order. -/
theorem search_eq (stack : List Attempt) (found : OrderedSet (List Template)) :
    search stack found = found.insertAll (stack.flatMap Attempt.completions) := by
  induction stack, found using search.induct with
  | case1 found => rw [search, List.flatMap_nil, OrderedSet.insertAll_nil]
  | case2 found a stack ih =>
    have hrecord : a.record found = found.insertAll a.finished := by
      unfold Attempt.record Attempt.finished
      split <;> rfl
    rw [search, ih, hrecord, List.flatMap_append, List.flatMap_cons, a.completions_eq,
      List.append_assoc, OrderedSet.insertAll_append found]

theorem fillings_eq_tuples (main other : Template) :
    main.fillings other = tuples main.tokens other.tokens := by
  have hdistinct := (pairwise_tuples main.tokens other.tokens).imp LengthsBefore.not_beq
  rw [fillings, search_eq, List.flatMap_singleton, Attempt.completions_of_closed]
  simp only [List.nil_append, List.map_id']
  exact OrderedSet.toList_ofList_of_distinct hdistinct

/-! ## Fillings of templates -/

section Templates

variable {main other : Template} {filling : List Template} {listed : List (List Template)}

theorem covers_iff_exists_fillWith :
    main.covers other = true ↔ ∃ tuple, main.fillWith tuple = .ok other := by
  simp only [covers_iff, covers_iff_exists_fills, fillWith_eq_ok_iff]

theorem mem_fillings_iff : tuple ∈ main.fillings other ↔ main.fillWith tuple = .ok other := by
  rw [fillings_eq_tuples, mem_tuples_iff, fillWith_eq_ok_iff]

theorem fillings_ne_nil_iff : main.fillings other ≠ [] ↔ main.covers other = true := by
  rw [fillings_eq_tuples]
  exact tuples_ne_nil_iff

theorem fillings?_eq_ok_iff :
    main.fillings? other = .ok listed ↔ main.covers other = true ∧ main.fillings other = listed := by
  unfold fillings?
  split <;> simp_all

/-! ### The best filling -/

theorem mem_of_leastSpread? {fillings : List (List Template)}
    (h : leastSpread? fillings = some filling) : filling ∈ fillings := by
  cases fillings with
  | nil => cases h
  | cons first rest =>
    have hfold (pairs : List (Float × List Template)) (best : Float × List Template) :
        (pairs.foldl lesserSpread best).2 ∈ best.2 :: pairs.map Prod.snd := by
      induction pairs generalizing best with
      | nil => exact List.mem_cons_self
      | cons next pairs ih =>
        rw [List.foldl_cons, List.map_cons]
        rcases List.mem_cons.1 (ih (lesserSpread best next)) with heq | hin
        · rw [heq, lesserSpread]
          split <;> simp
        · exact .tail _ (.tail _ hin)
    obtain rfl := Option.some.inj h
    simpa [Function.comp_def] using hfold (rest.map fun f => (spread f, f)) (spread first, first)

theorem mem_fillings_of_bestFilling? (h : main.bestFilling? other = .ok filling) :
    filling ∈ main.fillings other := by
  unfold bestFilling? at h
  split at h
  next filling' hleast =>
    obtain rfl := Except.ok.inj h
    exact mem_of_leastSpread? hleast
  · cases h

theorem exists_leastSpread? (h : listed ≠ []) : ∃ filling, leastSpread? listed = some filling := by
  cases listed with
  | nil => exact absurd rfl h
  | cons first rest => exact ⟨_, rfl⟩

theorem exists_bestFilling?_iff :
    (∃ best, main.bestFilling? other = .ok best) ↔ main.covers other = true := by
  constructor
  · rintro ⟨best, hbest⟩
    exact fillings_ne_nil_iff.1 (List.ne_nil_of_mem (mem_fillings_of_bestFilling? hbest))
  · intro hcovers
    obtain ⟨best, hbest⟩ := exists_leastSpread? (fillings_ne_nil_iff.2 hcovers)
    exact ⟨best, by rw [bestFilling?, hbest]⟩

/-! ### The search for fillings -/

/-- **Covering and the search for fillings are exact.** A template covers another one exactly if some
tuple of values, one for each occurrence of a slot, gives the other one token for token. Exactly then are
fillings listed, and exactly then is there a best one. What is listed are the tuples that give the other
template and nothing else, each once, even up to the numbers of anonymous slots, in lexicographic order of
the lengths of their values. The best filling is one of them. -/
theorem fillings_exact (main other : Template) :
    (main.covers other = true ↔ ∃ tuple, main.fillWith tuple = .ok other) ∧
    ((∃ listed, main.fillings? other = .ok listed) ↔ main.covers other = true) ∧
    (∀ listed, main.fillings? other = .ok listed →
      (∀ tuple, tuple ∈ listed ↔ main.fillWith tuple = .ok other) ∧
      listed.Pairwise (fun a b => (a == b) = false) ∧ listed.Pairwise LengthsBefore) ∧
    ((∃ best, main.bestFilling? other = .ok best) ↔ main.covers other = true) ∧
    (∀ best, main.bestFilling? other = .ok best →
      ∃ listed, main.fillings? other = .ok listed ∧ best ∈ listed) := by
  have hordered : (main.fillings other).Pairwise LengthsBefore := by
    rw [fillings_eq_tuples]
    exact pairwise_tuples _ _
  refine ⟨covers_iff_exists_fillWith, ?_, ?_, exists_bestFilling?_iff, ?_⟩
  · simp only [fillings?_eq_ok_iff, exists_and_left, exists_eq', and_true]
  · intro listed hlisted
    obtain ⟨-, rfl⟩ := fillings?_eq_ok_iff.1 hlisted
    exact ⟨fun tuple => mem_fillings_iff, hordered.imp LengthsBefore.not_beq, hordered⟩
  · intro best hbest
    have hcovers := exists_bestFilling?_iff.1 ⟨best, hbest⟩
    exact ⟨_, fillings?_eq_ok_iff.2 ⟨hcovers, rfl⟩, mem_fillings_of_bestFilling? hbest⟩

end Templates

end GrammarInduction.Template
