import GrammarInduction.Proofs.Arena.Growth
import Mathlib.Data.List.Pairwise

/-!
# Joining nodes with equal templates

A collapsing step dissolves some of the new children of a node (`dissolve`), groups what it has then by
template, and joins the members of each group.

* `Grouped b members groups`: every member is in the group of its template, and no two groups have equal
  templates (`grouped_groupByTemplate`).
* `Joined b group c`: the node `c` is the only member of the group or has the children of all members. This
  makes it unique (`Joined.unique`).
* `Regrouped b members j`: what comes of it for the new node `j` of the step, without groups. Each child is
  a member or joined of several, each member has a child with its template, and no two children have equal
  templates (`regrouped_collapseStep`). Later proofs go by this alone.
-/

namespace GrammarInduction.Arena

open Walk

variable {a b b' : Arena} {t : Template} {i j c d m : Nat} {ids images members : List Nat}
  {gone : Nat → Bool} {group : Template × OrderedSet Nat} {groups : List (Template × OrderedSet Nat)}

/-- The nodes of a list, with the children of those that are gone in place of them. -/
def dissolve (b : Arena) (gone : Nat → Bool) (ids : List Nat) : List Nat :=
  ids.flatMap fun c => if gone c then b.children c else [c]

theorem mem_dissolve : d ∈ b.dissolve gone ids ↔
    ∃ c ∈ ids, (gone c = true ∧ d ∈ b.children c) ∨ (gone c = false ∧ d = c) := by
  rw [dissolve, List.mem_flatMap]
  refine exists_congr fun c => and_congr_right fun _ => ?_
  cases gone c <;> simp

theorem lt_of_mem_dissolve (hids : ∀ c ∈ ids, c < b.size) (hd : d ∈ b.dissolve gone ids) :
    d < b.size := by
  obtain ⟨c, hc, ⟨-, hd⟩ | ⟨-, rfl⟩⟩ := mem_dissolve.1 hd
  · exact Nat.lt_trans (children_lt hd) (hids c hc)
  · exact hids d hc

theorem dissolve_eq_self (h : ∀ c ∈ ids, gone c = false) : b.dissolve gone ids = ids := by
  rw [dissolve, List.flatMap_congr fun c hc => by rw [h c hc]]
  exact List.flatMap_singleton' ids

/-! ## Groups -/

/-- Every member is in the group of its template. -/
structure Grouped (b : Arena) (members : List Nat) (groups : List (Template × OrderedSet Nat)) :
    Prop where
  mem : ∀ m, m ∈ members ↔ ∃ group ∈ groups, m ∈ group.2.toList
  nonempty : ∀ group ∈ groups, group.2.toList ≠ []
  template : ∀ group ∈ groups, ∀ m ∈ group.2.toList, (b.template m == group.1) = true
  distinct : groups.Pairwise fun g h => (g.1 == h.1) = false

theorem Grouped.eq_of_beq {g h : Template × OrderedSet Nat} (hgroups : Grouped b members groups)
    (hg : g ∈ groups) (hh : h ∈ groups) (heq : (g.1 == h.1) = true) : g = h := by
  by_contra hne
  have : Std.Symm fun g h : Template × OrderedSet Nat => (g.1 == h.1) = false :=
    ⟨fun g h hgh => BEq.comm.trans hgh⟩
  exact Bool.noConfusion (heq.symm.trans (hgroups.distinct.forall hg hh hne))

theorem exists_mem_updateEntries :
    (∃ group ∈ OrderedMap.updateEntries t
        (fun known : Option (OrderedSet Nat) => (known.getD .empty).insert c) groups,
      m ∈ group.2.toList) ↔ (∃ group ∈ groups, m ∈ group.2.toList) ∨ m = c := by
  induction groups with
  | nil => simp [OrderedMap.updateEntries, OrderedSet.mem_insert]
  | cons first groups ih =>
    obtain ⟨key, known⟩ := first
    unfold OrderedMap.updateEntries
    split
    · simp only [List.exists_mem_cons_iff, Option.getD_some, OrderedSet.mem_insert]
      exact or_right_comm
    · simp only [List.exists_mem_cons_iff, ih]
      exact or_assoc.symm

/-- A node joins the group of its template. -/
theorem Grouped.update {groups : OrderedMap Template (OrderedSet Nat)}
    (h : Grouped b members groups.entries) (c : Nat) :
    Grouped b (members ++ [c])
      (groups.update (b.template c) fun known => (known.getD .empty).insert c).entries where
  mem m := by
    rw [List.mem_append, List.mem_singleton, h.mem]
    exact exists_mem_updateEntries.symm
  nonempty := by
    have hne (known : OrderedSet Nat) : (known.insert c).toList ≠ [] :=
      List.ne_nil_of_mem (OrderedSet.mem_insert.2 (.inr rfl))
    exact OrderedMap.forall_updateEntries h.nonempty (hne _) fun _ _ _ _ => hne _
  template := by
    refine OrderedMap.forall_updateEntries h.template (fun m hm => ?_) fun key known hkey hknown m hm => ?_
    · rcases OrderedSet.mem_insert.1 hm with hm | rfl
      · cases hm
      · exact BEq.rfl
    · rcases OrderedSet.mem_insert.1 hm with hm | rfl
      · exact hknown m hm
      · exact BEq.symm hkey
  distinct := OrderedMap.distinct _

theorem grouped_groupByTemplate :
    Grouped b (b.dissolve (fun c => b.template c == t) images) (groupByTemplate b t images).entries := by
  have hfold : ∀ (rest done : List Nat) (groups : OrderedMap Template (OrderedSet Nat)),
      Grouped b done groups.entries → Grouped b (done ++ rest) (rest.foldl (fun groups c =>
        groups.update (b.template c) fun known => (known.getD .empty).insert c) groups).entries := by
    intro rest
    induction rest with
    | nil => exact fun done groups h => by simpa using h
    | cons c rest ih => exact fun done groups h => by simpa using ih _ _ (h.update c)
  refine hfold (b.dissolve (fun c => b.template c == t) images) [] .empty ?_
  exact ⟨by simp, by simp, by simp, .nil⟩

/-! ## Joined nodes -/

/-- The only member of a group, or a node with the children of all members. -/
structure Joined (b : Arena) (group : Template × OrderedSet Nat) (c : Nat) : Prop where
  lt : c < b.size
  members_lt : ∀ m ∈ group.2.toList, m < b.size
  cases : group.2.toList = [c] ∨
    (∀ m, group.2.toList ≠ [m]) ∧ (b.template c == group.1) = true ∧
      ∀ d, d ∈ b.children c ↔ ∃ m ∈ group.2.toList, d ∈ b.children m

theorem Joined.of_extends (h : Joined b group c) (hext : b'.Extends b) : Joined b' group c where
  lt := Nat.lt_of_lt_of_le h.lt hext.size_le
  members_lt m hm := Nat.lt_of_lt_of_le (h.members_lt m hm) hext.size_le
  cases := by
    refine h.cases.imp_right fun ⟨hmany, htemplate, hchildren⟩ => ⟨hmany, ?_, fun d => ?_⟩
    · rwa [hext.template h.lt]
    · rw [hext.children h.lt, hchildren]
      exact exists_congr fun m => and_congr_right fun hm => by rw [hext.children (h.members_lt m hm)]

theorem joined_joinGroup (hlt : ∀ m ∈ group.2.toList, m < b.size) :
    Joined (joinGroup b group.1 group.2).1 group (joinGroup b group.1 group.2).2 := by
  unfold joinGroup
  split
  next c honly =>
    have hsingle := OrderedSet.only?_eq_some_iff.1 honly
    exact ⟨hlt c (by simp [hsingle]), hlt, .inl hsingle⟩
  next hnone =>
    have hids : ∀ d ∈ group.2.toList.flatMap b.children, d < b.size := by
      intro d hd
      obtain ⟨m, hm, hd⟩ := List.mem_flatMap.1 hd
      exact Nat.lt_trans (children_lt hd) (hlt m hm)
    have hext := b.extends_intern group.1 (group.2.toList.flatMap b.children)
    refine ⟨b.intern_lt_size _ _, fun m hm => Nat.lt_of_lt_of_le (hlt m hm) hext.size_le, .inr ⟨?_, ?_, ?_⟩⟩
    · intro m hm
      rw [OrderedSet.only?_eq_some_iff.2 hm] at hnone
      cases hnone
    · exact (b.intern_same _ _).2
    · intro d
      rw [mem_children_intern hids, List.mem_flatMap]
      exact exists_congr fun m => and_congr_right fun hm => by rw [hext.children (hlt m hm)]

theorem joined_joinGroups (hlt : ∀ group ∈ groups, ∀ m ∈ group.2.toList, m < b.size) :
    List.Forall₂ (Joined (joinGroups b groups).1) groups (joinGroups b groups).2 := by
  induction groups generalizing b with
  | nil => exact .nil
  | cons group groups ih =>
    obtain ⟨hfirst, hrest⟩ := List.forall_mem_cons.1 hlt
    have hext := extends_joinGroup b group.1 group.2
    refine .cons ((joined_joinGroup hfirst).of_extends (extends_joinGroups _ groups)) (ih ?_)
    exact fun g hg m hm => Nat.lt_of_lt_of_le (hrest g hg m hm) hext.size_le

/-- The members of a group are joined to one node. -/
theorem Joined.unique (hc : Joined b group c) (hd : Joined b group d) : c = d := by
  rcases hc.cases with hc' | ⟨hmany, htc, hchildren⟩
  · rcases hd.cases with hd' | ⟨hmany, -, -⟩
    · exact List.singleton_inj.1 (hc'.symm.trans hd')
    · exact absurd hc' (hmany c)
  · rcases hd.cases with hd' | ⟨-, htd, hchildren'⟩
    · exact absurd hd' (hmany d)
    · refine eq_of_same hc.lt hd.lt ?_ (BEq.trans htc (BEq.symm htd))
      refine (b.children_pairwise c).eq_of_mem_iff (b.children_pairwise d) fun e => ?_
      rw [hchildren, hchildren']

/-- The node has the template of the group. -/
theorem Joined.template (h : Joined b group c) (hgroups : Grouped b members groups)
    (hgroup : group ∈ groups) : (b.template c == group.1) = true := by
  rcases h.cases with hsingle | ⟨-, htemplate, -⟩
  · exact hgroups.template group hgroup c (by simp [hsingle])
  · exact htemplate

/-! ## The new node of a step -/

/-- No two children have equal templates. -/
def NoTwins (a : Arena) (i : Nat) : Prop :=
  ∀ c ∈ a.children i, ∀ d ∈ a.children i, c ≠ d → (a.template c == a.template d) = false

theorem Extends.noTwins_iff (h : b.Extends a) (hi : i < a.size) : b.NoTwins i ↔ a.NoTwins i := by
  have htemplate : ∀ c ∈ a.children i, b.template c = a.template c := fun c hc =>
    h.template (Nat.lt_trans (children_lt hc) hi)
  unfold NoTwins
  rw [h.children hi]
  refine forall₂_congr fun c hc => forall₂_congr fun d hd => ?_
  rw [htemplate c hc, htemplate d hd]

theorem lasting_noTwins : Lasting NoTwins := fun hext hi h => (hext.noTwins_iff hi).2 h

/-- A node that stands for the members with its template: the only one of them, or a node with the
children of several. -/
inductive Merged (b : Arena) (members : List Nat) (c : Nat) : Prop where
  | single (hc : c ∈ members)
      (honly : ∀ m ∈ members, (b.template m == b.template c) = true → m = c)
  | joined (htwins : ∃ m ∈ members, ∃ n ∈ members, m ≠ n ∧ (b.template m == b.template c) = true ∧
        (b.template n == b.template c) = true)
      (hchildren : ∀ d, d ∈ b.children c ↔
        ∃ m ∈ members, (b.template m == b.template c) = true ∧ d ∈ b.children m)

/-- The children of a node are some nodes, joined by their templates. -/
structure Regrouped (b : Arena) (members : List Nat) (j : Nat) : Prop where
  merged : ∀ c ∈ b.children j, Merged b members c
  exists_child : ∀ m ∈ members, ∃ c ∈ b.children j, (b.template m == b.template c) = true
  noTwins : b.NoTwins j

/-- A joined node has what all members have throughout, if it has it itself. -/
theorem Merged.throughout {Q : Arena → Nat → Prop} (h : Merged b members c)
    (hmembers : ∀ m ∈ members, Throughout Q b m)
    (hself : (∀ d, d ∈ b.children c ↔
      ∃ m ∈ members, (b.template m == b.template c) = true ∧ d ∈ b.children m) → Q b c) :
    Throughout Q b c := by
  cases h with
  | single hc => exact hmembers c hc
  | joined _ hchildren =>
    refine throughout_of_children (hself hchildren) fun d hd => ?_
    obtain ⟨m, hm, -, hd⟩ := (hchildren d).1 hd
    exact (hmembers m hm).child hd

theorem Grouped.of_extends (h : Grouped b members groups) (hext : b'.Extends b)
    (hlt : ∀ m ∈ members, m < b.size) : Grouped b' members groups where
  mem := h.mem
  nonempty := h.nonempty
  template group hgroup m hm := by
    rw [hext.template (hlt m ((h.mem m).2 ⟨group, hgroup, hm⟩)), h.template group hgroup m hm]
  distinct := h.distinct

theorem Joined.merged (h : Joined b group c) (hgroups : Grouped b members groups)
    (hgroup : group ∈ groups) : Merged b members c := by
  have htemplate := h.template hgroups hgroup
  -- the members with the template of the node are those of the group
  have hmem : ∀ m, m ∈ group.2.toList ↔ m ∈ members ∧ (b.template m == b.template c) = true := by
    intro m
    constructor
    · intro hm
      have hm' := hgroups.template group hgroup m hm
      exact ⟨(hgroups.mem m).2 ⟨group, hgroup, hm⟩, BEq.trans hm' (BEq.symm htemplate)⟩
    · rintro ⟨hm, hmc⟩
      obtain ⟨group', hgroup', hm⟩ := (hgroups.mem m).1 hm
      have hm' := hgroups.template group' hgroup' m hm
      have heq := hgroups.eq_of_beq hgroup' hgroup
        (BEq.trans (BEq.symm hm') (BEq.trans hmc htemplate))
      exact heq ▸ hm
  rcases h.cases with hsingle | ⟨hmany, -, hchildren⟩
  · refine .single ((hmem c).1 (by simp [hsingle])).1 fun m hm hmc => ?_
    simpa [hsingle] using (hmem m).2 ⟨hm, hmc⟩
  · refine .joined ?_ fun d => ?_
    · obtain ⟨m, rest, hgroup'⟩ := List.exists_cons_of_ne_nil (hgroups.nonempty group hgroup)
      obtain ⟨n, rest, rfl⟩ := List.exists_cons_of_ne_nil fun hnil => hmany m (hnil ▸ hgroup')
      have hne : m ≠ n := by
        have hnodup := group.2.nodup_toList
        rw [hgroup', List.nodup_cons] at hnodup
        exact fun heq => hnodup.1 (heq ▸ List.mem_cons_self)
      obtain ⟨hm, hmc⟩ := (hmem m).1 (by simp [hgroup'])
      obtain ⟨hn, hnc⟩ := (hmem n).1 (by simp [hgroup'])
      exact ⟨m, hm, n, hn, hne, hmc, hnc⟩
    · rw [hchildren]
      simp only [hmem, and_assoc]

theorem collapseStep_lt (a b : Arena) (i : Nat) (images : List Nat) :
    (collapseStep a b i images).2 < (collapseStep a b i images).1.size := intern_lt_size _ _ _

theorem template_collapseStep (a b : Arena) (i : Nat) (images : List Nat) :
    ((collapseStep a b i images).1.template (collapseStep a b i images).2 == a.template i) = true :=
  (intern_same _ _ _).2

/-- **The new node of a collapsing step.** -/
theorem regrouped_collapseStep (himages : ∀ c ∈ images, c < b.size) :
    Regrouped (collapseStep a b i images).1
      (b.dissolve (fun c => b.template c == a.template i) images) (collapseStep a b i images).2 := by
  have hgrouped : Grouped b (b.dissolve (fun c => b.template c == a.template i) images)
      (groupByTemplate b (a.template i) images).entries := grouped_groupByTemplate
  have hlt : ∀ m ∈ b.dissolve (fun c => b.template c == a.template i) images, m < b.size :=
    fun _ hm => lt_of_mem_dissolve himages hm
  unfold collapseStep
  dsimp only
  generalize (groupByTemplate b (a.template i) images).entries = groups at hgrouped ⊢
  have hmembers : ∀ group ∈ groups, ∀ m ∈ group.2.toList, m < b.size :=
    fun group hgroup m hm => hlt m ((hgrouped.mem m).2 ⟨group, hgroup, hm⟩)
  have hjoined := joined_joinGroups hmembers
  have hext := (joinGroups b groups).1.extends_intern (a.template i) (joinGroups b groups).2
  have hids : ∀ c ∈ (joinGroups b groups).2, c < (joinGroups b groups).1.size := by
    intro c hc
    obtain ⟨group, -, h⟩ := exists_of_mem_right hjoined hc
    exact h.lt
  replace hgrouped := hgrouped.of_extends (hext.trans (extends_joinGroups b groups)) hlt
  replace hjoined := hjoined.imp fun _ _ h => h.of_extends hext
  refine ⟨fun c hc => ?_, fun m hm => ?_, fun c hc d hd hne => ?_⟩
  · rw [mem_children_intern hids] at hc
    obtain ⟨group, hgroup, h⟩ := exists_of_mem_right hjoined hc
    exact h.merged hgrouped hgroup
  · obtain ⟨group, hgroup, hm⟩ := (hgrouped.mem m).1 hm
    obtain ⟨c, hc, h⟩ := exists_of_mem_left hjoined hgroup
    refine ⟨c, (mem_children_intern hids).2 hc, ?_⟩
    exact BEq.trans (hgrouped.template group hgroup m hm) (BEq.symm (h.template hgrouped hgroup))
  · rw [mem_children_intern hids] at hc hd
    obtain ⟨g, hg, hgc⟩ := exists_of_mem_right hjoined hc
    obtain ⟨h, hh, hhd⟩ := exists_of_mem_right hjoined hd
    rw [Bool.eq_false_iff]
    intro hcd
    -- nodes with equal templates come from one group, which gives one node
    have heq := hgrouped.eq_of_beq hg hh (BEq.trans (BEq.symm (hgc.template hgrouped hg))
      (BEq.trans hcd (hhd.template hgrouped hh)))
    exact hne ((heq ▸ hgc).unique hhd)

end GrammarInduction.Arena
