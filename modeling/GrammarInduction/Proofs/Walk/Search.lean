import GrammarInduction.Walk.Search
import GrammarInduction.Proofs.Walk.Reach
import Mathlib.Data.List.Nodup

/-!
# Searches that look for a way back

What a search with a stack (`Walk.ordering?`) finds: it lists what can be reached, each node once and
after its neighbours (`of_ordering?`), unless some node there leads back to itself, and then it lists
nothing (`ordering?_eq_none_iff`).

`Search.Sound` is what holds of a search at any time, and `Search.Sound.turn` is the step: a turn
keeps it. By way of the stack, an open node leads to all that is above the task to leave it; so a
search that comes upon an open node has found a way back (`Search.Sound.exists_leads`). That it never
runs out of turns is due to `Search.remaining`, which goes down with each turn.
-/

namespace GrammarInduction.Walk

universe u

variable {α : Type u} {next : α → List α} {a b start : α} {before after order nodes : List α}

/-- One or more edges lead from one node to another one. -/
def Leads (next : α → List α) : α → α → Prop := Relation.TransGen fun a b => b ∈ next a

/-! ## Nodes after their neighbours -/

theorem idxOf_lt_of_ordered [BEq α] [LawfulBEq α] {before as : List α} (h : Ordered next before as)
    (ha : a ∈ as) (hb : b ∈ next a) : b ∈ before ∨ as.idxOf b < as.idxOf a := by
  induction as generalizing before with
  | nil => cases ha
  | cons x as ih =>
    obtain ⟨hx, hrest⟩ := h
    by_cases hxa : x = a
    · exact .inl (hx b (hxa ▸ hb))
    · have hmem : a ∈ as := (List.mem_cons.1 ha).resolve_left (Ne.symm hxa)
      rw [List.idxOf_cons_ne _ hxa]
      by_cases hxb : x = b
      · rw [hxb, List.idxOf_cons_self]
        exact .inr (Nat.succ_pos _)
      · rw [List.idxOf_cons_ne _ hxb]
        refine (ih hrest hmem).imp (fun hb => ?_) Nat.succ_lt_succ
        exact (List.mem_cons.1 hb).resolve_left (Ne.symm hxb)

theorem mem_of_ordered [BEq α] [LawfulBEq α] {as : List α} (h : Ordered next [] as) (ha : a ∈ as)
    (hb : b ∈ next a) : b ∈ as := by
  have hlt := (idxOf_lt_of_ordered h ha hb).resolve_left List.not_mem_nil
  exact List.idxOf_lt_length_iff.1 (Nat.lt_trans hlt (List.idxOf_lt_length_iff.2 ha))

/-- In a list in which each node comes after its neighbours no node leads back to itself. -/
theorem not_leads_of_ordered [BEq α] [LawfulBEq α] {as : List α} (h : Ordered next [] as)
    (ha : a ∈ as) : ¬ Leads next a a := by
  have hstep {x y : α} (hx : x ∈ as) (hxy : y ∈ next x) : as.idxOf y < as.idxOf x :=
    (idxOf_lt_of_ordered h hx hxy).resolve_left List.not_mem_nil
  have hlt {b : α} (hab : Leads next a b) : b ∈ as ∧ as.idxOf b < as.idxOf a := by
    induction hab with
    | single hab => exact ⟨mem_of_ordered h ha hab, hstep ha hab⟩
    | tail _ hbc ih => exact ⟨mem_of_ordered h ih.1 hbc, Nat.lt_trans (hstep ih.1 hbc) ih.2⟩
  exact fun haa => Nat.lt_irrefl _ (hlt haa).2

namespace Task

/-- The node at which something is to be done. -/
def node : Task α → α
  | enter a => a
  | leave a => a

/-- The node to be left. -/
def left? : Task α → Option α
  | enter _ => none
  | leave a => some a

end Task

/-! ## Plans -/

/-- Whether all nodes are left after their neighbours when what is on a stack is done; `before` holds
the nodes that are left before or on the stack further up. -/
def Planned (next : α → List α) : List α → List (Task α) → Prop
  | _, [] => True
  | before, .enter a :: rest => Planned next (a :: before) rest
  | before, .leave a :: rest => (∀ b ∈ next a, b ∈ before) ∧ Planned next (a :: before) rest

theorem Planned.mono {stack : List (Task α)} (h : Planned next before stack)
    (hsub : before ⊆ after) : Planned next after stack := by
  induction stack generalizing before after with
  | nil => trivial
  | cons task stack ih =>
    cases task with
    | enter a => exact ih h (List.cons_subset_cons a hsub)
    | leave a => exact ⟨fun b hb => hsub (h.1 b hb), ih h.2 (List.cons_subset_cons a hsub)⟩

theorem planned_enter_append {as : List α} {stack : List (Task α)} :
    Planned next before (as.map .enter ++ stack) ↔ Planned next (as.reverse ++ before) stack := by
  induction as generalizing before with
  | nil => rfl
  | cons a as ih =>
    rw [List.reverse_cons, List.append_assoc]
    exact ih

namespace Search

variable {s t : Search α} {task : Task α} {stack : List (Task α)} {opened : List α}

/-- A node is left, or something is still to be done there. -/
def Knows (s : Search α) (a : α) : Prop := a ∈ s.order ∨ ∃ task ∈ s.stack, task.node = a

theorem knows_cons_iff : Knows ⟨task :: stack, opened, order⟩ b ↔
    task.node = b ∨ Knows ⟨stack, opened, order⟩ b := by
  simp only [Knows, List.mem_cons, exists_eq_or_imp]
  exact or_left_comm

theorem knows_concat_iff : Knows ⟨stack, opened, order ++ [a]⟩ b ↔
    a = b ∨ Knows ⟨stack, opened, order⟩ b := by
  simp only [Knows, List.mem_append, List.mem_singleton]
  rw [or_comm (a := b ∈ order), or_assoc, eq_comm]

/-- What holds of a search from `start` at any time. -/
structure Sound (next : α → List α) (start : α) (s : Search α) : Prop where
  /-- The nodes that are left come after their neighbours. -/
  ordered : Ordered next [] s.order
  /-- So will those that are still to be left. -/
  planned : Planned next s.order s.stack
  /-- The open nodes are those to be left. -/
  opened : s.stack.filterMap Task.left? = s.opened
  nodup : (s.order ++ s.opened).Nodup
  /-- An open node leads to all that is above it. -/
  leads : s.stack.Pairwise fun t u => ∀ a, u = .leave a → Leads next a t.node
  reached : ∀ b, s.Knows b → Reaches next start b
  start : s.Knows start

theorem sound_init (next : α → List α) (start : α) :
    Sound next start ⟨[.enter start], [], []⟩ where
  ordered := trivial
  planned := trivial
  opened := rfl
  nodup := .nil
  leads := List.pairwise_singleton ..
  reached b hb := by
    obtain hb | ⟨task, htask, rfl⟩ := hb
    · cases hb
    · rw [List.mem_singleton.1 htask]
      exact .refl next start
  start := .inr ⟨_, List.mem_singleton_self _, rfl⟩

/-! ## What one turn keeps -/

/-- A node that is left already is passed over. -/
theorem Sound.skip (h : Sound next start ⟨.enter a :: stack, opened, order⟩) (ha : a ∈ order) :
    Sound next start ⟨stack, opened, order⟩ where
  ordered := h.ordered
  planned :=
    have hplanned : Planned next (a :: order) stack := h.planned
    hplanned.mono (List.cons_subset.2 ⟨ha, List.Subset.refl _⟩)
  opened := h.opened
  nodup := h.nodup
  leads := h.leads.of_cons
  reached b hb := h.reached b (knows_cons_iff.2 (.inr hb))
  start := (knows_cons_iff.1 h.start).elim (fun hstart => .inl (hstart ▸ ha)) id

/-- When it comes to leaving a node, all that was above it is done, and so its neighbours are left. -/
theorem Sound.leave (h : Sound next start ⟨.leave a :: stack, a :: opened, order⟩) :
    Sound next start ⟨stack, opened, order ++ [a]⟩ where
  ordered := ordered_concat_iff.2 ⟨h.ordered, fun b hb => .inl (h.planned.1 b hb)⟩
  planned := h.planned.2.mono fun b hb =>
    List.mem_append.2 ((List.mem_cons.1 hb).symm.imp_right List.mem_singleton.2)
  opened := (List.cons.inj h.opened).2
  nodup := by simpa using h.nodup
  leads := h.leads.of_cons
  reached b hb := h.reached b (knows_cons_iff.2 (knows_concat_iff.1 hb))
  start := knows_concat_iff.2 (knows_cons_iff.1 h.start)

/-- An open node leads to the node that is entered next, for it is to be left further down. -/
theorem Sound.leads_enter (h : Sound next start ⟨.enter a :: stack, opened, order⟩)
    (hb : b ∈ opened) : Leads next b a := by
  obtain rfl : stack.filterMap Task.left? = opened := h.opened
  obtain ⟨u, hu, hleft⟩ := List.mem_filterMap.1 hb
  refine (List.pairwise_cons.1 h.leads).1 u hu b ?_
  cases u with
  | enter c => cases hleft
  | leave c => rw [Option.some.inj hleft]

section Turns

variable [BEq α]

/-- The tasks to enter those of some nodes that are not left. -/
def entries (order as : List α) : List (Task α) :=
  (as.filter (!order.contains ·)).reverse.map .enter

theorem length_entries_le (order as : List α) : (entries order as).length ≤ as.length := by
  rw [entries, List.length_map, List.length_reverse]
  exact List.length_filter_le ..

theorem run_cons (turns : Nat) : run next (turns + 1) ⟨task :: stack, opened, order⟩ =
    (Search.turn next ⟨stack, opened, order⟩ task).bind (run next turns) := rfl

variable [LawfulBEq α]

theorem mem_entries_iff {as : List α} :
    task ∈ entries order as ↔ ∃ b ∈ as, b ∉ order ∧ task = .enter b := by
  simp only [entries, List.mem_map, List.mem_reverse, List.mem_filter, and_assoc]
  simp [eq_comm (a := task)]

theorem knows_entries_append {as : List α}
    (h : Knows ⟨entries order as ++ stack, opened, order⟩ b) :
    b ∈ as ∨ Knows ⟨stack, opened, order⟩ b := by
  obtain hb | ⟨task, htask, rfl⟩ := h
  · exact .inr (.inl hb)
  · rcases List.mem_append.1 htask with htask | htask
    · obtain ⟨b, hb, -, rfl⟩ := mem_entries_iff.1 htask
      exact .inl hb
    · exact .inr (.inr ⟨task, htask, rfl⟩)

theorem foldlM_push (as : List α) (s : Search α) : as.foldlM push s =
    if as.any s.opened.contains then none
    else some { s with stack := entries s.order as ++ s.stack } := by
  induction as generalizing s with
  | nil => rfl
  | cons a as ih =>
    rw [List.foldlM_cons, List.any_cons, push]
    by_cases hopen : s.opened.contains a = true
    · rw [if_pos hopen, hopen]
      rfl
    rw [if_neg hopen, eq_false_of_ne_true hopen, Bool.false_or]
    by_cases hleft : s.order.contains a = true
    · rw [if_pos hleft, entries, List.filter_cons_of_neg (by simpa using hleft)]
      exact ih s
    · rw [if_neg hleft, entries, List.filter_cons_of_pos (by simpa using hleft), List.reverse_cons,
        List.map_append, List.append_assoc]
      exact ih _

theorem enter_eq : Search.enter next ⟨stack, opened, order⟩ a =
    if order.contains a then some ⟨stack, opened, order⟩
    else if opened.contains a || (next a).any (a :: opened).contains then none
    else some ⟨entries order (next a) ++ .leave a :: stack, a :: opened, order⟩ := by
  rw [Search.enter, foldlM_push]
  cases opened.contains a <;> rfl

/-- A new node is entered: it is open then, and what is not left of its neighbours is above it. -/
theorem Sound.enter (h : Sound next start ⟨.enter a :: stack, opened, order⟩) (hleft : a ∉ order)
    (hopen : a ∉ opened) :
    Sound next start ⟨entries order (next a) ++ .leave a :: stack, a :: opened, order⟩ where
  ordered := h.ordered
  planned := by
    have hplanned : Planned next (a :: order) stack := h.planned
    rw [entries, planned_enter_append, List.reverse_reverse]
    refine ⟨fun b hb => ?_, hplanned.mono (List.cons_subset_cons a (List.subset_append_right ..))⟩
    by_cases hb' : b ∈ order
    · exact List.mem_append_right _ hb'
    · exact List.mem_append_left _ (List.mem_filter.2 ⟨hb, by simpa using hb'⟩)
  opened := by
    have hentries : (entries order (next a)).filterMap Task.left? = [] := by
      simp [entries, Task.left?]
    rw [List.filterMap_append, hentries]
    exact congrArg (a :: ·) h.opened
  nodup := by
    refine List.nodup_middle.2 (List.nodup_cons.2 ⟨?_, h.nodup⟩)
    exact List.not_mem_append hleft hopen
  leads := by
    obtain ⟨habove, hbelow⟩ := List.pairwise_cons.1 h.leads
    refine List.pairwise_append.2 ⟨?_, List.pairwise_cons.2 ⟨habove, hbelow⟩, ?_⟩
    · refine List.pairwise_of_forall_mem_list fun t _ u hu c hc => ?_
      obtain ⟨b, -, -, rfl⟩ := mem_entries_iff.1 hu
      cases hc
    · intro t ht u hu c hc
      obtain ⟨b, hb, -, rfl⟩ := mem_entries_iff.1 ht
      rcases List.mem_cons.1 hu with rfl | hu
      · cases hc
        exact .single hb
      · exact .tail (habove u hu c hc) hb
  reached b hb := by
    rcases knows_entries_append hb with hb | hb
    · have ha : Reaches next start a := h.reached a (knows_cons_iff.2 (.inl rfl))
      exact ha.trans (reaches_of_mem hb)
    · have hb := knows_cons_iff.1 hb
      exact h.reached b (knows_cons_iff.2 hb)
  start := by
    have hstart := knows_cons_iff.1 h.start
    have hstart : Knows ⟨.leave a :: stack, a :: opened, order⟩ start := knows_cons_iff.2 hstart
    exact hstart.imp_right fun ⟨task, htask, hnode⟩ => ⟨task, List.mem_append_right _ htask, hnode⟩

/-! ## Turns -/

/-- What a turn does: an open node is left, a node that is left already is passed over, or a new one
is entered. -/
theorem Sound.turn_cases (h : Sound next start ⟨task :: stack, opened, order⟩)
    (hturn : Search.turn next ⟨stack, opened, order⟩ task = some t) :
    (∃ a rest, task = .leave a ∧ opened = a :: rest ∧ t = ⟨stack, rest, order ++ [a]⟩) ∨
      (∃ a, task = .enter a ∧ a ∈ order ∧ t = ⟨stack, opened, order⟩) ∨
      ∃ a, task = .enter a ∧ a ∉ order ∧ a ∉ opened ∧
        t = ⟨entries order (next a) ++ .leave a :: stack, a :: opened, order⟩ := by
  cases task with
  | leave a =>
    obtain rfl : a :: stack.filterMap Task.left? = opened := h.opened
    obtain rfl := Option.some.inj hturn
    exact .inl ⟨a, _, rfl, rfl, by rw [Search.leave, List.erase_cons_head]⟩
  | enter a =>
    rw [Search.turn, enter_eq] at hturn
    split at hturn
    next hleft =>
      exact .inr (.inl ⟨a, rfl, List.contains_iff_mem.1 hleft, (Option.some.inj hturn).symm⟩)
    next hleft =>
      split at hturn
      · cases hturn
      next hopen =>
        simp only [List.contains_iff_mem, Bool.or_eq_true, not_or] at hleft hopen
        exact .inr (.inr ⟨a, rfl, hleft, hopen.1, (Option.some.inj hturn).symm⟩)

/-- What holds of a search at any time holds after one more turn. -/
theorem Sound.turn (h : Sound next start ⟨task :: stack, opened, order⟩)
    (hturn : Search.turn next ⟨stack, opened, order⟩ task = some t) : Sound next start t := by
  rcases h.turn_cases hturn with
    ⟨a, rest, rfl, rfl, rfl⟩ | ⟨a, rfl, hleft, rfl⟩ | ⟨a, rfl, hleft, hopen, rfl⟩
  · exact h.leave
  · exact h.skip hleft
  · exact h.enter hleft hopen

/-- Where there is no way on, a node leads back to itself. -/
theorem Sound.exists_leads (h : Sound next start ⟨task :: stack, opened, order⟩)
    (hturn : Search.turn next ⟨stack, opened, order⟩ task = none) :
    ∃ b, Reaches next start b ∧ Leads next b b := by
  cases task with
  | leave a => cases hturn
  | enter a =>
    have ha : Reaches next start a := h.reached a (knows_cons_iff.2 (.inl rfl))
    rw [Search.turn, enter_eq] at hturn
    split at hturn
    · cases hturn
    split at hturn
    next hopen =>
      rcases Bool.or_eq_true_iff.1 hopen with hopen | hany
      · exact ⟨a, ha, h.leads_enter (List.contains_iff_mem.1 hopen)⟩
      · obtain ⟨b, hb, hback⟩ := List.any_eq_true.1 hany
        refine ⟨b, ha.trans (reaches_of_mem hb), ?_⟩
        rcases List.mem_cons.1 (List.contains_iff_mem.1 hback) with rfl | hback
        · exact .single hb
        · exact .tail (h.leads_enter hback) hb
    · cases hturn

/-! ## The number of turns -/

/-- The number of tasks that some nodes bring to the stack, but for the nodes that are seen
already. -/
def work (next : α → List α) (seen nodes : List α) : Nat :=
  ((nodes.filter (!seen.contains ·)).flatMap fun a => a :: next a).length

theorem work_congr {seen seen' : List α} (h : ∀ b, b ∈ seen ↔ b ∈ seen') :
    work next seen nodes = work next seen' nodes := by
  simp only [work, List.contains_eq_mem, h]

/-- When a node is seen, the tasks that it brings are no more to come. -/
theorem work_of_new {seen : List α} (hnodes : nodes.Nodup) (ha : a ∈ nodes) (hnew : a ∉ seen) :
    work next (a :: seen) nodes + (next a).length + 1 = work next seen nodes := by
  induction nodes with
  | nil => cases ha
  | cons b nodes ih =>
    obtain ⟨hb, hnodes⟩ := List.nodup_cons.1 hnodes
    unfold work at ih ⊢
    by_cases hab : b = a
    · subst hab
      have hrest : nodes.filter (!(b :: seen).contains ·) = nodes.filter (!seen.contains ·) :=
        List.filter_congr fun c hc => by
          simp [show c ≠ b from fun h => hb (h ▸ hc)]
      rw [List.filter_cons_of_neg (by simp), List.filter_cons_of_pos (by simpa using hnew), hrest,
        List.flatMap_cons, List.length_append, List.length_cons]
      omega
    · have ih := ih hnodes ((List.mem_cons.1 ha).resolve_left (Ne.symm hab))
      by_cases hseen : b ∈ seen
      · rwa [List.filter_cons_of_neg (by simp [hseen]), List.filter_cons_of_neg (by simp [hseen])]
      · rw [List.filter_cons_of_pos (by simp [hab, hseen]),
          List.filter_cons_of_pos (by simpa using hseen), List.flatMap_cons, List.flatMap_cons,
          List.length_append, List.length_append]
        omega

/-- The number of turns that are still to come, at most. -/
def remaining (next : α → List α) (nodes : List α) (s : Search α) : Nat :=
  s.stack.length + work next (s.order ++ s.opened) nodes

theorem remaining_turn_lt (hnodes : nodes.Nodup)
    (hreach : ∀ b, Reaches next start b → b ∈ nodes)
    (h : Sound next start ⟨task :: stack, opened, order⟩)
    (hturn : Search.turn next ⟨stack, opened, order⟩ task = some t) :
    remaining next nodes t < remaining next nodes ⟨task :: stack, opened, order⟩ := by
  rcases h.turn_cases hturn with
    ⟨a, rest, rfl, rfl, rfl⟩ | ⟨a, rfl, -, rfl⟩ | ⟨a, rfl, hleft, hopen, rfl⟩
  · have hwork : work next (order ++ [a] ++ rest) nodes = work next (order ++ a :: rest) nodes := by
      rw [List.append_assoc, List.singleton_append]
    simp only [remaining, List.length_cons, hwork]
    omega
  · simp only [remaining, List.length_cons]
    omega
  · have ha : a ∈ nodes := hreach a (h.reached a (knows_cons_iff.2 (.inl rfl)))
    have hwork : work next (a :: (order ++ opened)) nodes + (next a).length + 1 =
        work next (order ++ opened) nodes :=
      work_of_new hnodes ha (List.not_mem_append hleft hopen)
    have hperm : work next (order ++ a :: opened) nodes = work next (a :: (order ++ opened)) nodes :=
      work_congr fun _ => List.perm_middle.mem_iff
    have hentries := length_entries_le order (next a)
    simp only [remaining, List.length_append, List.length_cons, hperm]
    omega

/-! ## Runs -/

/-- A search that comes to its end lists what can be reached, each node once and after its
neighbours. -/
theorem Sound.of_run {turns : Nat} (h : Sound next start s) (hrun : run next turns s = some order) :
    Ordered next [] order ∧ order.Nodup ∧ ∀ b, b ∈ order ↔ Reaches next start b := by
  induction turns generalizing s with
  | zero => cases hrun
  | succ turns ih =>
    obtain ⟨stack, opened, left⟩ := s
    cases stack with
    | nil =>
      obtain rfl := Option.some.inj hrun
      obtain rfl : [] = opened := h.opened
      have hknown {b : α} (hb : Knows ⟨[], [], left⟩ b) : b ∈ left := hb.resolve_right (by simp)
      refine ⟨h.ordered, by simpa using h.nodup, fun b => ⟨fun hb => h.reached b (.inl hb), ?_⟩⟩
      exact fun hb => hb.induct (hknown h.start) fun x hx y hy => mem_of_ordered h.ordered hx hy
    | cons task stack =>
      obtain ⟨t, hturn, hrun⟩ := Option.bind_eq_some_iff.1 hrun
      exact ih (h.turn hturn) hrun

/-- A search that gives up with turns left has found a node that leads back to itself. -/
theorem Sound.of_run_eq_none {turns : Nat} (hnodes : nodes.Nodup)
    (hreach : ∀ b, Reaches next start b → b ∈ nodes) (h : Sound next start s)
    (hturns : remaining next nodes s < turns) (hrun : run next turns s = none) :
    ∃ b, Reaches next start b ∧ Leads next b b := by
  induction turns generalizing s with
  | zero => exact absurd hturns (Nat.not_lt_zero _)
  | succ turns ih =>
    obtain ⟨stack, opened, left⟩ := s
    cases stack with
    | nil => cases hrun
    | cons task stack =>
      rw [run_cons] at hrun
      cases hturn : Search.turn next ⟨stack, opened, left⟩ task with
      | none => exact h.exists_leads hturn
      | some t =>
        have hlt := remaining_turn_lt hnodes hreach h hturn
        exact ih (h.turn hturn) (by omega) (by rwa [hturn] at hrun)

end Turns

end Search

/-! ## The order of a graph -/

section Order

variable [BEq α] [LawfulBEq α]

theorem of_ordering? (h : ordering? next nodes start = some order) :
    Ordered next [] order ∧ order.Nodup ∧ ∀ b, b ∈ order ↔ Reaches next start b :=
  (Search.sound_init next start).of_run h

/-- **There is no order exactly if a node that can be reached leads back to itself.** -/
theorem ordering?_eq_none_iff (hnodes : nodes.Nodup)
    (hreach : ∀ b, Reaches next start b → b ∈ nodes) :
    ordering? next nodes start = none ↔ ∃ b, Reaches next start b ∧ Leads next b b := by
  constructor
  · refine (Search.sound_init next start).of_run_eq_none hnodes hreach ?_
    have hwork : Search.work next [] nodes = (nodes.flatMap fun a => a :: next a).length := by
      simp [Search.work]
    simp only [Search.remaining, List.append_nil, List.length_singleton, hwork]
    omega
  · rintro ⟨b, hb, hleads⟩
    cases hresult : ordering? next nodes start with
    | none => rfl
    | some order =>
      obtain ⟨hordered, -, hmem⟩ := of_ordering? hresult
      exact absurd hleads (not_leads_of_ordered hordered ((hmem b).2 hb))

end Order

end GrammarInduction.Walk
