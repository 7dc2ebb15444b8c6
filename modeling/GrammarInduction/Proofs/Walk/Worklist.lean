import GrammarInduction.Proofs.Walk.Search
import GrammarInduction.Walk.Worklist
import Mathlib.Order.Bounds.Basic
import Mathlib.Order.Lattice.Nat

/-!
# Walks with a list of nodes to visit

`Walk.distance next a b` is the length of a shortest way from `a` to `b`. Both walks visit exactly
what can be reached (`mem_byQueue`, `mem_byStack`), in any graph in which only the nodes of a finite
list have neighbours; the one with a queue visits the nodes in the order of their distances
(`pairwise_distance_byQueue`).

`Broad` is what holds of a walk with a queue at any time: all nodes that are seen, the visited ones and
then those on the queue, are in the order of their distances, and the distances on the queue differ by
one at most. `Broad.visit` is the step.
-/

namespace GrammarInduction.Walk

universe u

variable {α : Type u} {next : α → List α} {a b start : α} {n turns : Nat}
  {visited queue stack nodes rest more result : List α}

/-! ## Distances -/

/-- So many edges lead from one node to another one. -/
def Steps (next : α → List α) : Nat → α → α → Prop
  | 0, a, b => a = b
  | n + 1, a, c => ∃ b, Steps next n a b ∧ c ∈ next b

theorem reaches_iff_exists_steps : Reaches next a b ↔ ∃ n, Steps next n a b := by
  constructor
  · intro h
    induction h with
    | refl => exact ⟨0, rfl⟩
    | tail _ hbc ih =>
      obtain ⟨n, hn⟩ := ih
      exact ⟨n + 1, _, hn, hbc⟩
  · rintro ⟨n, hn⟩
    induction n generalizing b with
    | zero =>
      obtain rfl : a = b := hn
      exact .refl next a
    | succ n ih =>
      obtain ⟨c, hc, hcb⟩ := hn
      exact (ih hc).trans (reaches_of_mem hcb)

/-- The number of edges on a shortest way from one node to another one, if there is a way. -/
noncomputable def distance (next : α → List α) (a b : α) : Nat := sInf {n | Steps next n a b}

theorem distance_le (h : Steps next n a b) : distance next a b ≤ n := Nat.sInf_le h

theorem isLeast_distance (h : Reaches next a b) :
    IsLeast {n | Steps next n a b} (distance next a b) :=
  ⟨Nat.sInf_mem (reaches_iff_exists_steps.1 h), fun _ => distance_le⟩

theorem distance_le_succ (ha : Reaches next start a) (hb : b ∈ next a) :
    distance next start b ≤ distance next start a + 1 :=
  distance_le ⟨a, (isLeast_distance ha).1, hb⟩

/-! ## What a visit finds -/

/-- A node is visited: what is to be visited then is some of its neighbours and what was to be visited
before, and the other neighbours are found anyway. -/
theorem Explores.visit (h : Explores next more (visited ++ [a]) result)
    (hmore : ∀ x ∈ more, x ∈ next a ∨ x ∈ rest) (hrest : ∀ x ∈ rest, x ∈ result)
    (hnext : ∀ x ∈ next a, x ∈ result) : Explores next (a :: rest) visited result where
  mono x hx := h.mono x (List.mem_append_left _ hx)
  mem := List.forall_mem_cons.2 ⟨h.mono a (List.mem_append_right _ List.mem_cons_self), hrest⟩
  closed x hx := by
    rcases h.closed x hx with hx | hx
    · refine (List.mem_append.1 hx).imp_right fun hx => ?_
      rwa [List.mem_singleton.1 hx]
    · exact .inr hx
  reached x hx := by
    rcases h.reached x hx with hx | ⟨s, hs, hreach⟩
    · refine (List.mem_append.1 hx).imp_right fun hx => ?_
      exact ⟨a, List.mem_cons_self, List.mem_singleton.1 hx ▸ .refl next a⟩
    · rcases hmore s hs with hs | hs
      · exact .inr ⟨a, List.mem_cons_self, hreach.head hs⟩
      · exact .inr ⟨s, .tail _ hs, hreach⟩

/-! ## With a queue -/

/-- What holds of a walk with a queue at any time. -/
structure Broad (next : α → List α) (start : α) (visited queue : List α) : Prop where
  reached : ∀ a ∈ visited ++ queue, Reaches next start a
  /-- The neighbours of visited nodes are seen. -/
  closed : ∀ a ∈ visited, ∀ b ∈ next a, b ∈ visited ++ queue
  /-- Nearer nodes are seen first. -/
  ascending : (visited ++ queue).Pairwise fun a b => distance next start a ≤ distance next start b
  /-- The distances on the queue differ by one at most. -/
  even : queue.Pairwise fun a b => distance next start b ≤ distance next start a + 1
  start : start ∈ visited ++ queue

theorem broad_init (next : α → List α) (start : α) : Broad next start [] [start] where
  reached a ha := List.mem_singleton.1 ha ▸ .refl next start
  closed a ha := by cases ha
  ascending := List.pairwise_singleton ..
  even := List.pairwise_singleton ..
  start := List.mem_singleton_self start

theorem Broad.distance_le_of_mem (h : Broad next start visited (a :: queue)) (hb : b ∈ a :: queue) :
    distance next start a ≤ distance next start b := by
  rcases List.mem_cons.1 hb with rfl | hb
  · exact Nat.le_refl _
  · exact (List.pairwise_cons.1 (List.pairwise_append.1 h.ascending).2.1).1 b hb

/-- A node that is not visited is no nearer than the first one on the queue. -/
theorem Broad.distance_le_of_steps (h : Broad next start visited (a :: queue)) (hb : b ∉ visited)
    (hn : Steps next n start b) : distance next start a ≤ n := by
  -- The induction is on the way from the start; where it leaves the visited nodes, it meets the queue.
  induction n generalizing b with
  | zero =>
    obtain rfl : start = b := hn
    have hmem := (List.mem_append.1 h.start).resolve_left hb
    exact Nat.le_trans (h.distance_le_of_mem hmem) (distance_le rfl)
  | succ n ih =>
    obtain ⟨c, hc, hcb⟩ := hn
    by_cases hvisited : c ∈ visited
    · have hmem := (List.mem_append.1 (h.closed c hvisited b hcb)).resolve_left hb
      exact Nat.le_trans (h.distance_le_of_mem hmem) (distance_le ⟨c, hc, hcb⟩)
    · exact Nat.le_succ_of_le (ih hvisited hc)

/-- A neighbour of the first node on the queue that is not seen yet is one step further away. -/
theorem Broad.distance_eq_succ (h : Broad next start visited (a :: queue)) (hb : b ∈ next a)
    (hnew : b ∉ visited ++ a :: queue) : distance next start b = distance next start a + 1 := by
  have ha : Reaches next start a :=
    h.reached a (List.mem_append_right _ List.mem_cons_self)
  refine Nat.le_antisymm (distance_le_succ ha hb) ?_
  have hleast := (isLeast_distance (ha.trans (reaches_of_mem hb))).1
  change Steps next (distance next start b) start b at hleast
  generalize distance next start b = n at hleast
  cases n with
  | zero =>
    obtain rfl : start = b := hleast
    exact absurd h.start hnew
  | succ n =>
    obtain ⟨c, hc, hcb⟩ := hleast
    refine Nat.succ_le_succ (h.distance_le_of_steps (fun hvisited => hnew ?_) hc)
    exact h.closed c hvisited b hcb

/-- A seen node is at most one step further away than the first one on the queue. -/
theorem Broad.distance_le_succ_of_seen (h : Broad next start visited (a :: queue))
    (hb : b ∈ visited ++ a :: queue) : distance next start b ≤ distance next start a + 1 := by
  rcases List.mem_append.1 hb with hb | hb
  · have hbefore := (List.pairwise_append.1 h.ascending).2.2
    exact Nat.le_succ_of_le (hbefore b hb a List.mem_cons_self)
  · rcases List.mem_cons.1 hb with rfl | hb
    · exact Nat.le_succ _
    · exact (List.pairwise_cons.1 h.even).1 b hb

theorem append_visit (visited queue fresh : List α) (a : α) :
    visited ++ [a] ++ (queue ++ fresh) = visited ++ a :: queue ++ fresh := by simp

variable [BEq α]

theorem byQueue_cons (turns : Nat) (visited queue : List α) (a : α) :
    visited ++ byQueue next (turns + 1) (visited ++ a :: queue) (a :: queue) =
      visited ++ [a] ++
        byQueue next turns
          (visited ++ [a] ++ (queue ++ unseen (visited ++ a :: queue) (next a)))
          (queue ++ unseen (visited ++ a :: queue) (next a)) := by
  rw [append_visit, byQueue, List.append_assoc visited [a], List.singleton_append]

variable [LawfulBEq α]

/-- All that is seen after a visit. -/
theorem mem_visited_append_unseen :
    b ∈ visited ++ a :: queue ++ unseen (visited ++ a :: queue) (next a) ↔
      b ∈ visited ++ a :: queue ∨ b ∈ next a := by
  rw [List.mem_append, mem_unseen]
  tauto

theorem nodup_append_byQueue (turns : Nat) (h : (visited ++ queue).Nodup) :
    (visited ++ byQueue next turns (visited ++ queue) queue).Nodup := by
  induction turns generalizing visited queue with
  | zero => simpa [byQueue] using h.sublist (List.sublist_append_left ..)
  | succ turns ih =>
    cases queue with
    | nil => exact h
    | cons a queue =>
      rw [byQueue_cons]
      refine ih ?_
      rw [append_visit]
      exact nodup_unseen h

/-- No node is visited twice, whether or not a node leads back to itself. -/
theorem nodup_byQueue (next : α → List α) (turns : Nat) (start : α) :
    (byQueue next turns [start] [start]).Nodup := by
  have hstart : ([] ++ [start]).Nodup := List.nodup_singleton start
  exact nodup_append_byQueue turns hstart

/-- The nodes on a queue and what they lead to are visited, if there are turns for as many nodes as
there are. -/
theorem explores_byQueue {all : List α} (hall : ∀ a, ∀ b ∈ next a, b ∈ all)
    (hnodup : (visited ++ queue).Nodup) (hseen : visited ++ queue ⊆ all)
    (hturns : all.length ≤ visited.length + turns) :
    Explores next queue visited (visited ++ byQueue next turns (visited ++ queue) queue) := by
  induction turns generalizing visited queue with
  | zero =>
    have hlength := (List.subperm_of_subset hnodup hseen).length_le
    rw [List.length_append] at hlength
    obtain rfl : queue = [] := List.length_eq_zero_iff.1 (by omega)
    simpa [byQueue] using explores_nil
  | succ turns ih =>
    cases queue with
    | nil => simpa [byQueue] using explores_nil
    | cons a queue =>
      have hvisit : (visited ++ [a] ++ (queue ++ unseen (visited ++ a :: queue) (next a))).Nodup := by
        rw [append_visit]
        exact nodup_unseen hnodup
      have hmore : visited ++ [a] ++ (queue ++ unseen (visited ++ a :: queue) (next a)) ⊆ all := by
        rw [append_visit]
        exact fun b hb => (mem_visited_append_unseen.1 hb).elim (@hseen b) (hall a b)
      have hrest := ih hvisit hmore (by rw [List.length_append, List.length_singleton]; omega)
      have hfound {b : α} (hb : b ∈ visited ++ a :: queue ∨ b ∈ next a) :
          b ∈ visited ++ byQueue next (turns + 1) (visited ++ a :: queue) (a :: queue) := by
        rw [byQueue_cons]
        rw [← mem_visited_append_unseen, ← append_visit] at hb
        exact (List.mem_append.1 hb).elim (hrest.mono b) (hrest.mem b)
      rw [← byQueue_cons] at hrest
      refine hrest.visit (fun x hx => ?_) (fun x hx => hfound (.inl ?_)) fun x hx => hfound (.inr hx)
      · exact (List.mem_append.1 hx).symm.imp_left fun hx => (mem_unseen.1 hx).1
      · exact List.mem_append_right _ (.tail _ hx)

/-- **What holds of a walk with a queue holds after one more visit.** -/
theorem Broad.visit (h : Broad next start visited (a :: queue)) :
    Broad next start (visited ++ [a]) (queue ++ unseen (visited ++ a :: queue) (next a)) := by
  have ha : Reaches next start a :=
    h.reached a (List.mem_append_right _ List.mem_cons_self)
  have hfresh : ∀ b ∈ unseen (visited ++ a :: queue) (next a),
      distance next start b = distance next start a + 1 := fun b hb =>
    have hb := mem_unseen.1 hb
    h.distance_eq_succ hb.1 hb.2
  refine ⟨fun b hb => ?_, fun b hb c hc => ?_, ?_, ?_, ?_⟩
  · rw [append_visit] at hb
    rcases mem_visited_append_unseen.1 hb with hb | hb
    · exact h.reached b hb
    · exact ha.trans (reaches_of_mem hb)
  · rw [append_visit]
    refine mem_visited_append_unseen.2 ?_
    rcases List.mem_append.1 hb with hb | hb
    · exact .inl (h.closed b hb c hc)
    · exact .inr (List.mem_singleton.1 hb ▸ hc)
  · rw [append_visit]
    refine List.pairwise_append.2 ⟨h.ascending, ?_, fun b hb c hc => ?_⟩
    · exact List.pairwise_of_forall_mem_list fun b hb c hc => by rw [hfresh b hb, hfresh c hc]
    · rw [hfresh c hc]
      exact h.distance_le_succ_of_seen hb
  · refine List.pairwise_append.2 ⟨h.even.of_cons, ?_, fun b hb c hc => ?_⟩
    · exact List.pairwise_of_forall_mem_list fun b hb c hc => by
        rw [hfresh b hb, hfresh c hc]
        exact Nat.le_succ _
    · rw [hfresh c hc]
      exact Nat.succ_le_succ (h.distance_le_of_mem (.tail _ hb))
  · rw [append_visit]
    exact mem_visited_append_unseen.2 (.inl h.start)

/-- Nodes are visited in the order of their distances. -/
theorem Broad.pairwise_distance (h : Broad next start visited queue) (turns : Nat) :
    (visited ++ byQueue next turns (visited ++ queue) queue).Pairwise
      fun a b => distance next start a ≤ distance next start b := by
  induction turns generalizing visited queue with
  | zero => simpa [byQueue] using (List.pairwise_append.1 h.ascending).1
  | succ turns ih =>
    cases queue with
    | nil => exact h.ascending
    | cons a queue =>
      rw [byQueue_cons]
      exact ih h.visit

theorem pairwise_distance_byQueue (next : α → List α) (turns : Nat) (start : α) :
    (byQueue next turns [start] [start]).Pairwise
      fun a b => distance next start a ≤ distance next start b :=
  (broad_init next start).pairwise_distance turns

/-- **A walk with a queue visits exactly what can be reached.** -/
theorem mem_byQueue (hnodes : ∀ a, a ∉ nodes → next a = []) :
    b ∈ byQueue next (Walk.turns next nodes) [start] [start] ↔ Reaches next start b := by
  have hall : ∀ a, ∀ b ∈ next a, b ∈ start :: nodes.flatMap fun a => a :: next a := by
    intro a b hb
    by_cases ha : a ∈ nodes
    · exact .tail _ (List.mem_flatMap.2 ⟨a, ha, .tail _ hb⟩)
    · rw [hnodes a ha] at hb
      cases hb
  have hexplores : Explores next [start] []
      ([] ++ byQueue next (Walk.turns next nodes) ([] ++ [start]) [start]) :=
    explores_byQueue hall (List.nodup_singleton start) (by simp) (by simp [Walk.turns])
  exact hexplores.mem_iff

/-! ## With a stack -/

theorem work_of_not_mem (ha : a ∉ nodes) :
    Search.work next (a :: visited) nodes = Search.work next visited nodes := by
  have hsame : nodes.filter (!(a :: visited).contains ·) = nodes.filter (!visited.contains ·) :=
    List.filter_congr fun b hb => by simp [show b ≠ a from fun h => ha (h ▸ hb)]
  rw [Search.work, hsame, Search.work]

/-- What a visited node puts on the stack is no more to come. -/
theorem length_add_work_le (hnodup : nodes.Nodup) (hnodes : ∀ a, a ∉ nodes → next a = [])
    (ha : a ∉ visited) : (next a).length + Search.work next (visited ++ [a]) nodes ≤
      Search.work next visited nodes := by
  have hcongr : Search.work next (visited ++ [a]) nodes = Search.work next (a :: visited) nodes :=
    Search.work_congr fun b => by simp [or_comm]
  rw [hcongr]
  by_cases hmem : a ∈ nodes
  · have hnew : Search.work next (a :: visited) nodes + (next a).length + 1 =
        Search.work next visited nodes := Search.work_of_new hnodup hmem ha
    omega
  · rw [hnodes a hmem, List.length_nil, Nat.zero_add, work_of_not_mem hmem]

/-- The nodes on a stack and what they lead to are visited, if there are turns for the stack and for
what the nodes bring that were not visited yet. -/
theorem explores_byStack (hnodup : nodes.Nodup) (hnodes : ∀ a, a ∉ nodes → next a = [])
    (hturns : stack.length + Search.work next visited nodes ≤ turns) :
    Explores next stack visited (byStack next turns visited stack) := by
  induction turns generalizing visited stack with
  | zero =>
    obtain rfl : stack = [] := List.length_eq_zero_iff.1 (by omega)
    exact explores_nil
  | succ turns ih =>
    cases stack with
    | nil => exact explores_nil
    | cons a stack =>
      rw [List.length_cons] at hturns
      rw [byStack]
      split
      next ha =>
        exact (explores_of_mem (List.contains_iff_mem.1 ha)).append (ih (by omega))
      next ha =>
        have hwork := length_add_work_le hnodup hnodes (by simpa using ha)
        have hrest : Explores next ((next a).reverse ++ stack) (visited ++ [a])
            (byStack next turns (visited ++ [a]) ((next a).reverse ++ stack)) :=
          ih (by rw [List.length_append, List.length_reverse]; omega)
        refine hrest.visit (fun x hx => ?_) (fun x hx => hrest.mem x (List.mem_append_right _ hx))
          fun x hx => hrest.mem x (List.mem_append_left _ (List.mem_reverse.2 hx))
        exact (List.mem_append.1 hx).imp_left List.mem_reverse.1

/-- **A walk with a stack visits exactly what can be reached.** -/
theorem mem_byStack (hnodup : nodes.Nodup) (hnodes : ∀ a, a ∉ nodes → next a = []) :
    b ∈ byStack next (Walk.turns next nodes) [] [start] ↔ Reaches next start b := by
  have hwork : Search.work next [] nodes = (nodes.flatMap fun a => a :: next a).length := by
    simp [Search.work]
  exact (explores_byStack hnodup hnodes (by simp [hwork, Walk.turns, Nat.add_comm])).mem_iff

end GrammarInduction.Walk
