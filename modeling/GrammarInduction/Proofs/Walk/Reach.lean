import GrammarInduction.Walk
import Mathlib.Logic.Relation
import Mathlib.Tactic.ByContra

/-!
# What walks reach

`Walk.Reaches next a b` says that edges lead from `a` to `b`. On a graph whose edges go down in some
measure `height`, a walk with more levels than the height of its first node visits exactly what can
be reached from there.

* `Explores` is what one call of a walk does to the nodes already seen; it composes along lists of
  first nodes (`explores_foldl`).
* `mem_preorder`, `mem_postorder`, `mem_breadthFirst` and `mem_edges` say what the walks list.
* `nodup_preorder`: no node is listed twice.
* `Ordered` lists have a node after its neighbours; `ordered_postorder` is the reason for the name.
-/

namespace GrammarInduction.Walk

universe u

variable {α : Type u} {next : α → List α} {a b c : α} {seen result starts : List α}

/-- Edges lead from one node to another one, or it is the same one. -/
def Reaches (next : α → List α) : α → α → Prop := Relation.ReflTransGen fun a b => b ∈ next a

theorem Reaches.refl (next : α → List α) (a : α) : Reaches next a a := Relation.ReflTransGen.refl

theorem Reaches.trans (h : Reaches next a b) (h' : Reaches next b c) : Reaches next a c :=
  Relation.ReflTransGen.trans h h'

theorem Reaches.head (h : b ∈ next a) (h' : Reaches next b c) : Reaches next a c :=
  Relation.ReflTransGen.head h h'

theorem reaches_of_mem (h : b ∈ next a) : Reaches next a b := Reaches.head h (.refl next b)

/-- The first step of a way, if there is one. -/
theorem reaches_cases_head (h : Reaches next a c) : a = c ∨ ∃ b ∈ next a, Reaches next b c :=
  Relation.ReflTransGen.cases_head h

theorem Reaches.height_le {height : α → Nat} (down : ∀ a, ∀ b ∈ next a, height b < height a)
    (h : Reaches next a b) : height b ≤ height a := by
  induction h with
  | refl => exact Nat.le_refl _
  | tail _ hbc ih =>
    have := down _ _ hbc
    omega

/-- A property that edges keep holds of all that is reached. -/
theorem Reaches.induct {P : α → Prop} (h : Reaches next a b) (ha : P a)
    (step : ∀ x, P x → ∀ y ∈ next x, P y) : P b := by
  induction h with
  | refl => exact ha
  | tail _ hbc ih => exact step _ ih _ hbc

/-! ## Exploring from several nodes -/

/-- What is found from some first nodes: they are in, with all that they lead to unless it was seen
before, and nothing else. -/
structure Explores (next : α → List α) (starts seen result : List α) : Prop where
  mono : ∀ x ∈ seen, x ∈ result
  mem : ∀ x ∈ starts, x ∈ result
  closed : ∀ x ∈ result, x ∈ seen ∨ ∀ y ∈ next x, y ∈ result
  reached : ∀ x ∈ result, x ∈ seen ∨ ∃ s ∈ starts, Reaches next s x

theorem explores_nil : Explores next [] seen seen :=
  ⟨fun _ h => h, by simp, fun _ h => .inl h, fun _ h => .inl h⟩

theorem explores_of_mem (h : a ∈ seen) : Explores next [a] seen seen :=
  ⟨fun _ h => h, by simpa using h, fun _ h => .inl h, fun _ h => .inl h⟩

theorem Explores.append {mid as bs : List α} (h : Explores next as seen mid)
    (h' : Explores next bs mid result) : Explores next (as ++ bs) seen result where
  mono x hx := h'.mono x (h.mono x hx)
  mem x hx := by
    rcases List.mem_append.1 hx with hx | hx
    · exact h'.mono x (h.mem x hx)
    · exact h'.mem x hx
  closed x hx := by
    rcases h'.closed x hx with hmid | hnext
    · rcases h.closed x hmid with hseen | hnext
      · exact .inl hseen
      · exact .inr fun y hy => h'.mono y (hnext y hy)
    · exact .inr hnext
  reached x hx := by
    rcases h'.reached x hx with hmid | ⟨s, hs, hr⟩
    · rcases h.reached x hmid with hseen | ⟨s, hs, hr⟩
      · exact .inl hseen
      · exact .inr ⟨s, List.mem_append_left _ hs, hr⟩
    · exact .inr ⟨s, List.mem_append_right _ hs, hr⟩

theorem explores_foldl {walk : List α → α → List α} {as : List α}
    (h : ∀ a ∈ as, ∀ seen, Explores next [a] seen (walk seen a)) (seen : List α) :
    Explores next as seen (as.foldl walk seen) := by
  induction as generalizing seen with
  | nil => exact explores_nil
  | cons a as ih =>
    exact (h a List.mem_cons_self seen).append (ih (fun b hb => h b (.tail _ hb)) _)

/-- A node is explored with its neighbours, whether it comes before or after them. -/
theorem Explores.node {mid : List α} (h : Explores next (next a) mid result)
    (hmid : ∀ x ∈ mid, x ∈ seen ∨ x = a) (hseen : ∀ x ∈ seen, x ∈ mid) {full : List α}
    (hfull : ∀ x, x ∈ full ↔ x ∈ result ∨ x = a) : Explores next [a] seen full where
  mono x hx := (hfull x).2 (.inl (h.mono x (hseen x hx)))
  mem x hx := (hfull x).2 (.inr (List.mem_singleton.1 hx))
  closed x hx := by
    have hnext : x = a → ∀ y ∈ next x, y ∈ full := by
      rintro rfl y hy
      exact (hfull y).2 (.inl (h.mem y hy))
    rcases (hfull x).1 hx with hx | hx
    · rcases h.closed x hx with hx | hx
      · exact (hmid x hx).imp id hnext
      · exact .inr fun y hy => (hfull y).2 (.inl (hx y hy))
    · exact .inr (hnext hx)
  reached x hx := by
    have ha : x = a → ∃ s ∈ [a], Reaches next s x := by
      rintro rfl
      exact ⟨x, List.mem_singleton_self x, .refl next x⟩
    rcases (hfull x).1 hx with hx | hx
    · rcases h.reached x hx with hx | ⟨s, hs, hr⟩
      · exact (hmid x hx).imp id ha
      · exact .inr ⟨a, List.mem_singleton_self a, hr.head hs⟩
    · exact .inr (ha hx)

/-- From nothing seen before, exactly what can be reached is found. -/
theorem Explores.mem_iff (h : Explores next [a] [] result) : b ∈ result ↔ Reaches next a b := by
  refine ⟨fun hb => ?_, fun hr => ?_⟩
  · rcases h.reached b hb with hb | ⟨s, hs, hr⟩
    · simp at hb
    · rwa [List.mem_singleton.1 hs] at hr
  · apply hr.induct (h.mem a (List.mem_singleton_self a))
    intro x hx y hy
    rcases h.closed x hx with hx | hnext
    · simp at hx
    · exact hnext y hy

theorem nodup_concat (h : seen.Nodup) (ha : a ∉ seen) : (seen ++ [a]).Nodup := by
  rw [List.nodup_append]
  refine ⟨h, by simp, fun x hx y hy => ?_⟩
  rw [List.mem_singleton.1 hy]
  rintro rfl
  exact ha hx

/-! ## Depth first -/

section DepthFirst

variable [BEq α] [LawfulBEq α] {height : α → Nat}

theorem explores_preorder (down : ∀ a, ∀ b ∈ next a, height b < height a) {levels : Nat} {a : α}
    (hl : height a < levels) (seen : List α) :
    Explores next [a] seen (preorder next levels seen a) := by
  induction levels generalizing a seen with
  | zero => exact absurd hl (Nat.not_lt_zero _)
  | succ levels ih =>
    cases hseen : seen.contains a with
    | true =>
      rw [preorder_of_seen hseen]
      exact explores_of_mem (List.contains_iff_mem.1 hseen)
    | false =>
      rw [preorder_of_new hseen]
      have hfold := explores_foldl
        (fun b hb seen => ih (by have := down a b hb; omega) seen) (seen ++ [a])
      apply hfold.node (by simp) (by simp +contextual)
      intro x
      refine ⟨.inl, ?_⟩
      rintro (hx | rfl)
      · exact hx
      · exact hfold.mono x (by simp)

theorem mem_preorder (down : ∀ a, ∀ b ∈ next a, height b < height a) {levels : Nat}
    (hl : height a < levels) : b ∈ preorder next levels [] a ↔ Reaches next a b :=
  (explores_preorder down hl []).mem_iff

theorem nodup_preorder (next : α → List α) (levels : Nat) (seen : List α) (a : α)
    (h : seen.Nodup) : (preorder next levels seen a).Nodup := by
  induction levels generalizing a seen with
  | zero => exact h
  | succ levels ih =>
    cases hseen : seen.contains a with
    | true => rwa [preorder_of_seen hseen]
    | false =>
      rw [preorder_of_new hseen]
      have hnew : (seen ++ [a]).Nodup := nodup_concat h (by simpa using hseen)
      exact List.foldlRecOn (next a) _ hnew fun seen hseen b _ => ih seen b hseen

theorem explores_postorder (down : ∀ a, ∀ b ∈ next a, height b < height a) {levels : Nat} {a : α}
    (hl : height a < levels) (done : List α) :
    Explores next [a] done (postorder next levels done a) := by
  induction levels generalizing a done with
  | zero => exact absurd hl (Nat.not_lt_zero _)
  | succ levels ih =>
    cases hdone : done.contains a with
    | true =>
      rw [postorder_of_done hdone]
      exact explores_of_mem (List.contains_iff_mem.1 hdone)
    | false =>
      rw [postorder_of_new hdone]
      have hfold := explores_foldl
        (fun b hb done => ih (by have := down a b hb; omega) done) done
      exact hfold.node (fun x hx => .inl hx) (fun x hx => hx) (by simp)

theorem mem_postorder (down : ∀ a, ∀ b ∈ next a, height b < height a) {levels : Nat}
    (hl : height a < levels) : b ∈ postorder next levels [] a ↔ Reaches next a b :=
  (explores_postorder down hl []).mem_iff

end DepthFirst

/-! ## Nodes after their neighbours -/

/-- Every node of a list has its neighbours before it, in the list or among the nodes `before`. -/
def Ordered (next : α → List α) : List α → List α → Prop
  | _, [] => True
  | before, a :: rest => (∀ b ∈ next a, b ∈ before) ∧ Ordered next (a :: before) rest

theorem ordered_concat_iff {before as : List α} :
    Ordered next before (as ++ [a]) ↔
      Ordered next before as ∧ ∀ b ∈ next a, b ∈ as ∨ b ∈ before := by
  induction as generalizing before with
  | nil => simp [Ordered]
  | cons x as ih =>
    simp only [List.cons_append, Ordered, ih, List.mem_cons, and_assoc]
    refine and_congr_right fun _ => and_congr_right fun _ => forall₂_congr fun b _ => ?_
    rw [or_left_comm, or_assoc]

theorem ordered_postorder [BEq α] [LawfulBEq α] {height : α → Nat}
    (down : ∀ a, ∀ b ∈ next a, height b < height a) {levels : Nat} {a : α} (hl : height a < levels)
    (done : List α) (h : Ordered next [] done) :
    Ordered next [] (postorder next levels done a) := by
  induction levels generalizing a done with
  | zero => exact h
  | succ levels ih =>
    cases hdone : done.contains a with
    | true => rwa [postorder_of_done hdone]
    | false =>
      rw [postorder_of_new hdone, ordered_concat_iff]
      have hlt : ∀ b ∈ next a, height b < levels := by
        intro b hb
        have := down a b hb
        omega
      have hfold := explores_foldl
        (fun b hb done => explores_postorder down (hlt b hb) done) done
      exact ⟨List.foldlRecOn (next a) _ h fun done hd b hb => ih (hlt b hb) done hd,
        fun b hb => .inl (hfold.mem b hb)⟩

/-! ## Level by level -/

section BreadthFirst

variable [BEq α] [LawfulBEq α] {height : α → Nat}

theorem explores_breadthFirst (down : ∀ a, ∀ b ∈ next a, height b < height a) {levels : Nat}
    {level : List α} (hl : ∀ a ∈ level, height a < levels) (seen : List α) :
    Explores next level seen (breadthFirst next levels seen level) := by
  induction levels generalizing level seen with
  | zero =>
    obtain rfl : level = [] := List.eq_nil_iff_forall_not_mem.2 fun a ha => by simpa using hl a ha
    exact explores_nil
  | succ levels ih =>
    rw [breadthFirst]
    by_cases hfresh : (unseen seen level).isEmpty = true
    · have hseen : ∀ a ∈ level, a ∈ seen := by
        intro a ha
        by_contra hnot
        have := mem_unseen.2 ⟨ha, hnot⟩
        simp [List.isEmpty_iff.1 hfresh] at this
      simp only [hfresh, if_true]
      exact ⟨fun _ h => h, hseen, fun _ h => .inl h, fun _ h => .inl h⟩
    · simp only [hfresh, Bool.false_eq_true, if_false]
      have hbelow : ∀ b ∈ (unseen seen level).flatMap next, height b < levels := by
        intro b hb
        obtain ⟨a, ha, hab⟩ := List.mem_flatMap.1 hb
        have := down a b hab
        have := hl a (mem_unseen.1 ha).1
        omega
      have hrest := ih hbelow (seen ++ unseen seen level)
      refine ⟨fun x hx => hrest.mono x (by simp [hx]), fun x hx => hrest.mono x ?_, ?_, ?_⟩
      · by_cases hs : x ∈ seen
        · simp [hs]
        · simp [mem_unseen, hx, hs]
      · intro x hx
        rcases hrest.closed x hx with hx | hnext
        · refine (List.mem_append.1 hx).imp id fun hx y hy => hrest.mem y ?_
          exact List.mem_flatMap.2 ⟨x, hx, hy⟩
        · exact .inr hnext
      · intro x hx
        rcases hrest.reached x hx with hx | ⟨s, hs, hr⟩
        · exact (List.mem_append.1 hx).imp id fun hx => ⟨x, (mem_unseen.1 hx).1, .refl next x⟩
        · obtain ⟨a, ha, has⟩ := List.mem_flatMap.1 hs
          exact .inr ⟨a, (mem_unseen.1 ha).1, hr.head has⟩

theorem mem_breadthFirst (down : ∀ a, ∀ b ∈ next a, height b < height a) {levels : Nat}
    (hl : height a < levels) : b ∈ breadthFirst next levels [] [a] ↔ Reaches next a b :=
  (explores_breadthFirst down (by simpa using hl) []).mem_iff

theorem nodup_unseen {seen as : List α} (h : seen.Nodup) :
    (seen ++ unseen seen as).Nodup := by
  refine List.foldlRecOn as _ (motive := fun fresh => (seen ++ fresh).Nodup) (by simpa using h)
    fun fresh hfresh a _ => ?_
  split
  · exact hfresh
  next hnew =>
    rw [← List.append_assoc]
    exact nodup_concat hfresh (by simpa using hnew)

end BreadthFirst

/-! ## Edges -/

/-- What is met from some first nodes: the edges from the nodes that were not seen before. -/
structure Meets (next : α → List α) (starts : List α) (before after : List α × List (α × α)) :
    Prop where
  explores : Explores next starts before.1 after.1
  mono : ∀ e ∈ before.2, e ∈ after.2
  complete : ∀ x ∈ after.1, x ∈ before.1 ∨ ∀ y ∈ next x, (x, y) ∈ after.2
  sound : ∀ e ∈ after.2, e ∈ before.2 ∨ e.1 ∈ after.1 ∧ e.2 ∈ next e.1

theorem Meets.append {before mid after : List α × List (α × α)} {as bs : List α}
    (h : Meets next as before mid) (h' : Meets next bs mid after) :
    Meets next (as ++ bs) before after where
  explores := h.explores.append h'.explores
  mono e he := h'.mono e (h.mono e he)
  complete x hx := by
    rcases h'.complete x hx with hmid | hall
    · exact (h.complete x hmid).imp id fun hall y hy => h'.mono _ (hall y hy)
    · exact .inr hall
  sound e he := by
    rcases h'.sound e he with hmid | hnew
    · exact (h.sound e hmid).imp id fun ⟨hx, hy⟩ => ⟨h'.explores.mono _ hx, hy⟩
    · exact .inr hnew

section Edges

/-- The walk from a node on into its neighbours `bs`. -/
theorem meets_foldl {walk : List α × List (α × α) → α → List α × List (α × α)} {bs : List α}
    (hbs : ∀ b ∈ bs, b ∈ next a) (hwalk : ∀ b ∈ bs, ∀ state, Meets next [b] state (walk state b))
    (state : List α × List (α × α)) (ha : a ∈ state.1) :
    Meets next bs state (bs.foldl (fun (seen, met) b => walk (seen, met ++ [(a, b)]) b) state) ∧
      ∀ b ∈ bs,
        (a, b) ∈ (bs.foldl (fun (seen, met) b => walk (seen, met ++ [(a, b)]) b) state).2 := by
  induction bs generalizing state with
  | nil => exact ⟨⟨explores_nil, fun _ h => h, fun _ h => .inl h, fun _ h => .inl h⟩, by simp⟩
  | cons b bs ih =>
    obtain ⟨seen, met⟩ := state
    have hb := hwalk b List.mem_cons_self (seen, met ++ [(a, b)])
    have hstep : Meets next [b] (seen, met) (walk (seen, met ++ [(a, b)]) b) := by
      refine ⟨hb.explores, fun e he => hb.mono e (by simp [he]), hb.complete, fun e he => ?_⟩
      rcases hb.sound e he with he | hnew
      · rcases List.mem_append.1 he with he | he
        · exact .inl he
        · obtain rfl := List.mem_singleton.1 he
          exact .inr ⟨hb.explores.mono a ha, hbs b List.mem_cons_self⟩
      · exact .inr hnew
    have hrest := ih (fun c hc => hbs c (.tail _ hc)) (fun c hc => hwalk c (.tail _ hc))
      (walk (seen, met ++ [(a, b)]) b) (hb.explores.mono a ha)
    refine ⟨hstep.append hrest.1, fun c hc => ?_⟩
    rcases List.mem_cons.1 hc with rfl | hc
    · exact hrest.1.mono _ (hb.mono _ (by simp))
    · exact hrest.2 c hc

variable [BEq α] [LawfulBEq α] {height : α → Nat}

theorem meets_edges (down : ∀ a, ∀ b ∈ next a, height b < height a) {levels : Nat} {a : α}
    (hl : height a < levels) (before : List α × List (α × α)) :
    Meets next [a] before (edges next levels before a) := by
  induction levels generalizing a before with
  | zero => exact absurd hl (Nat.not_lt_zero _)
  | succ levels ih =>
    obtain ⟨seen, met⟩ := before
    by_cases hseen : seen.contains a = true
    · simp only [edges, hseen, if_true]
      exact ⟨explores_of_mem (List.contains_iff_mem.1 hseen), fun _ h => h, fun _ h => .inl h,
        fun _ h => .inl h⟩
    · simp only [edges, hseen, Bool.false_eq_true, if_false]
      obtain ⟨hfold, hedges⟩ := meets_foldl
        (fun b hb => hb) (fun b hb => ih (by have := down a b hb; omega)) (a :: seen, met)
        List.mem_cons_self
      refine ⟨?_, hfold.mono, fun x hx => ?_, hfold.sound⟩
      · refine hfold.explores.node (fun x hx => (List.mem_cons.1 hx).symm)
          (fun x hx => .tail _ hx) fun x => ⟨.inl, ?_⟩
        rintro (hx | rfl)
        · exact hx
        · exact hfold.explores.mono x List.mem_cons_self
      · rcases hfold.complete x hx with hx | hall
        · rcases List.mem_cons.1 hx with rfl | hx
          · exact .inr hedges
          · exact .inl hx
        · exact .inr hall

theorem mem_edges (down : ∀ a, ∀ b ∈ next a, height b < height a) {levels : Nat}
    (hl : height a < levels) {e : α × α} :
    e ∈ (edges next levels ([], []) a).2 ↔ Reaches next a e.1 ∧ e.2 ∈ next e.1 := by
  have h := meets_edges down hl (([], []) : List α × List (α × α))
  refine ⟨fun he => ?_, fun ⟨hr, hy⟩ => ?_⟩
  · rcases h.sound e he with he | ⟨hx, hy⟩
    · simp at he
    · exact ⟨h.explores.mem_iff.1 hx, hy⟩
  · rcases h.complete e.1 (h.explores.mem_iff.2 hr) with hx | hall
    · simp at hx
    · exact hall e.2 hy

end Edges

end GrammarInduction.Walk
