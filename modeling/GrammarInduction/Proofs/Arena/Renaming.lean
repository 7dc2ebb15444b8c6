import GrammarInduction.Proofs.Arena.Growth
import GrammarInduction.Proofs.Arena.Naming
import GrammarInduction.Proofs.SlotNames
import Mathlib.Data.Set.Function

/-!
# Renaming is faithful

Renaming gives every node of a tree an image, with the template renamed and the images of the children
for children (`Renamed`). A node has one image only (`Renamed.unique`), and is the image of one node
only if the renaming keeps the slots of the tree apart (`Renamed.injective`). So the new tree is the old
one up to names and numbers of nodes (`Faithful`), although nodes are found again by templates that take
all anonymous slots for equal (`faithful_rename`).

The names that a source gives are different from each other and from the reserved ones (`Gives`), and
the names of the tree are reserved before the first is given. So naming the slots of a tree is such a
renaming (`naming_faithful`).
-/

namespace GrammarInduction.Arena

open Walk

variable {a b b' : Arena} {i i' j j' root root' : Nat} {s slot : Slot}
  {names : OrderedMap Slot Slot} {source : NameSource} {images : List Nat} {image : Nat → Nat}

/-- Whether a slot occurs in the tree below a node. -/
def Mentions (a : Arena) (root : Nat) (s : Slot) : Prop :=
  ∃ i, a.Reaches root i ∧ s ∈ (a.template i).slots

/-! ## Images -/

/-- Whether a node of `b` is what renaming makes of a node of `a`: the template is renamed, and the
children are what renaming makes of the children. -/
def Renamed (names : OrderedMap Slot Slot) (a b : Arena) (i j : Nat) : Prop :=
  b.template j = (a.template i).rename names ∧
    (∀ c, ∀ _ : c ∈ a.children i, ∃ d ∈ b.children j, Renamed names a b c d) ∧
    ∀ d ∈ b.children j, ∃ c, ∃ _ : c ∈ a.children i, Renamed names a b c d
termination_by i
decreasing_by all_goals exact children_lt ‹_›

theorem renamed_iff : Renamed names a b i j ↔ b.template j = (a.template i).rename names ∧
    (∀ c ∈ a.children i, ∃ d ∈ b.children j, Renamed names a b c d) ∧
    ∀ d ∈ b.children j, ∃ c ∈ a.children i, Renamed names a b c d := by
  rw [Renamed]
  simp only [exists_prop]

theorem Renamed.of_extends (h : Renamed names a b i j) (hext : b'.Extends b) (hj : j < b.size) :
    Renamed names a b' i j := by
  induction i using Nat.strongRecOn generalizing j with
  | ind i ih =>
    obtain ⟨htemplate, hto, hfrom⟩ := renamed_iff.1 h
    have hchild {c d : Nat} (hc : c ∈ a.children i) (hd : d ∈ b.children j)
        (h : Renamed names a b c d) : Renamed names a b' c d :=
      ih c (children_lt hc) h (Nat.lt_trans (children_lt hd) hj)
    rw [renamed_iff, hext.template hj, hext.children hj]
    refine ⟨htemplate, fun c hc => ?_, fun d hd => ?_⟩
    · obtain ⟨d, hd, hcd⟩ := hto c hc
      exact ⟨d, hd, hchild hc hd hcd⟩
    · obtain ⟨c, hc, hcd⟩ := hfrom d hd
      exact ⟨c, hc, hchild hc hd hcd⟩

/-- What one list corresponds to is in another one that it corresponds to as well, if nothing corresponds
to two. -/
theorem subset_of_correspond {R : Nat → Nat → Prop} {cs ds ds' : List Nat}
    (hfrom : ∀ d ∈ ds, ∃ c ∈ cs, R c d) (hto : ∀ c ∈ cs, ∃ d ∈ ds', R c d)
    (hsame : ∀ c ∈ cs, ∀ d ∈ ds, ∀ d' ∈ ds', R c d → R c d' → d = d') : ds ⊆ ds' := by
  intro d hd
  obtain ⟨c, hc, hcd⟩ := hfrom d hd
  obtain ⟨d', hd', hcd'⟩ := hto c hc
  exact hsame c hc d hd d' hd' hcd hcd' ▸ hd'

/-- A node has one image only: equal nodes are the same node. -/
theorem Renamed.unique (h : Renamed names a b i j) (h' : Renamed names a b i j') (hj : j < b.size)
    (hj' : j' < b.size) : j = j' := by
  induction i using Nat.strongRecOn generalizing j j' with
  | ind i ih =>
    obtain ⟨htemplate, hto, hfrom⟩ := renamed_iff.1 h
    obtain ⟨htemplate', hto', hfrom'⟩ := renamed_iff.1 h'
    have hsame : ∀ c ∈ a.children i, ∀ d ∈ b.children j, ∀ d' ∈ b.children j',
        Renamed names a b c d → Renamed names a b c d' → d = d' :=
      fun c hc d hd d' hd' h h' => ih c (children_lt hc) h h' (Nat.lt_trans (children_lt hd) hj)
        (Nat.lt_trans (children_lt hd') hj')
    have hchildren : b.children j = b.children j' :=
      (b.children_pairwise j).eq_of_mem_iff (b.children_pairwise j') fun _ =>
        ⟨fun hd => subset_of_correspond hfrom hto' hsame hd,
          fun hd => subset_of_correspond hfrom' hto
            (fun c hc d hd d' hd' h h' => (hsame c hc d' hd' d hd h' h).symm) hd⟩
    refine eq_of_same hj hj' hchildren ?_
    rw [htemplate, htemplate']
    exact BEq.rfl

/-- A node is the image of one node only, if different slots of the tree have different names. -/
theorem Renamed.injective
    (hnames : Set.InjOn (fun s => (names.get? s).getD s) {s | a.Mentions root s})
    (hroot : root < a.size) (hi : a.Reaches root i) (hi' : a.Reaches root i')
    (h : Renamed names a b i j) (h' : Renamed names a b i' j) : i = i' := by
  induction i using Nat.strongRecOn generalizing i' j with
  | ind i ih =>
    obtain ⟨htemplate, hto, hfrom⟩ := renamed_iff.1 h
    obtain ⟨htemplate', hto', hfrom'⟩ := renamed_iff.1 h'
    have hsame : ∀ d ∈ b.children j, ∀ c ∈ a.children i, ∀ c' ∈ a.children i',
        Renamed names a b c d → Renamed names a b c' d → c = c' :=
      fun d _ c hc c' hc' h h' => ih c (children_lt hc) (hi.trans (reaches_of_mem_children hc))
        (hi'.trans (reaches_of_mem_children hc')) h h'
    have hchildren : a.children i = a.children i' :=
      (a.children_pairwise i).eq_of_mem_iff (a.children_pairwise i') fun _ =>
        ⟨fun hc => subset_of_correspond (R := fun d c => Renamed names a b c d) hto hfrom' hsame hc,
          fun hc => subset_of_correspond (R := fun d c => Renamed names a b c d) hto' hfrom
            (fun d hd c hc c' hc' h h' => (hsame d hd c' hc' c hc h' h).symm) hc⟩
    have htemplates : a.template i = a.template i' :=
      Template.eq_of_rename_eq (htemplate.symm.trans htemplate')
        fun s hs s' hs' => hnames (show a.Mentions root s from ⟨i, hi, hs⟩) ⟨i', hi', hs'⟩
    refine eq_of_same (hi.lt_size hroot) (hi'.lt_size hroot) hchildren ?_
    rw [htemplates]
    exact BEq.rfl

theorem Renamed.exists_image (h : Renamed names a b root root') (hi : a.Reaches root i) :
    ∃ j, b.Reaches root' j ∧ Renamed names a b i j := by
  refine hi.induct (P := fun i => ∃ j, b.Reaches root' j ∧ Renamed names a b i j)
    ⟨root', .refl _ _, h⟩ ?_
  rintro i ⟨j, hj, hij⟩ c hc
  obtain ⟨d, hd, hcd⟩ := (renamed_iff.1 hij).2.1 c hc
  exact ⟨d, hj.trans (reaches_of_mem_children hd), hcd⟩

theorem Renamed.exists_origin (h : Renamed names a b root root') (hj : b.Reaches root' j) :
    ∃ i, a.Reaches root i ∧ Renamed names a b i j := by
  refine hj.induct (P := fun j => ∃ i, a.Reaches root i ∧ Renamed names a b i j)
    ⟨root, .refl _ _, h⟩ ?_
  rintro j ⟨i, hi, hij⟩ d hd
  obtain ⟨c, hc, hcd⟩ := (renamed_iff.1 hij).2.2 d hd
  exact ⟨c, hi.trans (reaches_of_mem_children hc), hcd⟩

/-! ## Renamed trees -/

/-- Whether the tree below `root'` is the tree below `root` with its slots renamed: its nodes are the
images of the nodes, one of each, with the template renamed and the images of the children for children. -/
structure Faithful (names : OrderedMap Slot Slot) (image : Nat → Nat) (a : Arena) (root : Nat) (b : Arena)
    (root' : Nat) : Prop where
  image_root : image root = root'
  nodes : Set.BijOn image {i | a.Reaches root i} {j | b.Reaches root' j}
  template : ∀ i, a.Reaches root i → b.template (image i) = (a.template i).rename names
  children : ∀ i, a.Reaches root i → ∀ d, d ∈ b.children (image i) ↔ ∃ c ∈ a.children i, image c = d

theorem Faithful.over (h : Faithful names image a root b root') {P : Slot → Prop}
    (hP : ∀ s, a.Mentions root s → P ((names.get? s).getD s)) (hj : b.Reaches root' j) :
    (b.template j).Over P := by
  obtain ⟨i, hi, rfl⟩ := h.nodes.surjOn hj
  intro s hs
  rw [h.template i hi] at hs
  obtain ⟨k, hk, rfl⟩ := Template.mem_slots_rename.1 hs
  exact hP k ⟨i, hi, hk⟩

theorem Renamed.exists_faithful (h : Renamed names a b root root')
    (hnames : Set.InjOn (fun s => (names.get? s).getD s) {s | a.Mentions root s})
    (hroot : root < a.size) (hroot' : root' < b.size) :
    ∃ image, Faithful names image a root b root' := by
  choose! image hreaches hrenamed using fun i (hi : a.Reaches root i) => h.exists_image hi
  have heq {i j : Nat} (hi : a.Reaches root i) (hj : b.Reaches root' j)
      (hij : Renamed names a b i j) : image i = j :=
    (hrenamed i hi).unique hij ((hreaches i hi).lt_size hroot') (hj.lt_size hroot')
  have hinj : Set.InjOn image {i | a.Reaches root i} := by
    intro i hi i' hi' hsame
    refine (hrenamed i hi).injective hnames hroot hi hi' ?_
    rw [hsame]
    exact hrenamed i' hi'
  have hsurj : Set.SurjOn image {i | a.Reaches root i} {j | b.Reaches root' j} := by
    intro j hj
    obtain ⟨i, hi, hij⟩ := h.exists_origin hj
    exact ⟨i, hi, heq hi hj hij⟩
  refine ⟨image, heq (.refl _ _) (.refl _ _) h, ⟨hreaches, hinj, hsurj⟩,
    fun i hi => (renamed_iff.1 (hrenamed i hi)).1, fun i hi d => ?_⟩
  obtain ⟨-, hto, hfrom⟩ := renamed_iff.1 (hrenamed i hi)
  have hchild {c d : Nat} (hc : c ∈ a.children i) (hd : d ∈ b.children (image i))
      (hcd : Renamed names a b c d) : image c = d :=
    heq (hi.trans (reaches_of_mem_children hc))
      ((hreaches i hi).trans (reaches_of_mem_children hd)) hcd
  constructor
  · intro hd
    obtain ⟨c, hc, hcd⟩ := hfrom d hd
    exact ⟨c, hc, hchild hc hd hcd⟩
  · rintro ⟨c, hc, rfl⟩
    obtain ⟨d, hd, hcd⟩ := hto c hc
    exact hchild hc hd hcd ▸ hd

/-! ### Storing renamed nodes -/

/-- A stored node over images of the children is an image, if the new template has no anonymous slots:
no other template is equal to it. -/
theorem renamed_intern (hover : ((a.template i).rename names).Over (·.isNamed = true))
    (himages : List.Forall₂ (fun c d => d < b.size ∧ Renamed names a b c d) (a.children i) images) :
    Renamed names a (b.intern ((a.template i).rename names) images).1 i
      (b.intern ((a.template i).rename names) images).2 := by
  have hext := b.extends_intern ((a.template i).rename names) images
  have hlt : ∀ d ∈ images, d < b.size := forall_mem_right himages fun _ _ h => h.1
  have hsame := (b.intern_same ((a.template i).rename names) images).2
  rw [renamed_iff]
  refine ⟨Template.eq_of_beq_of_named_right hsame hover, fun c hc => ?_, fun d hd => ?_⟩
  · obtain ⟨d, hd, hdb, hcd⟩ := exists_of_mem_left himages hc
    exact ⟨d, (mem_children_intern hlt).2 hd, hcd.of_extends hext hdb⟩
  · obtain ⟨c, hc, hdb, hcd⟩ := exists_of_mem_right himages ((mem_children_intern hlt).1 hd)
    exact ⟨c, hc, hcd.of_extends hext hdb⟩

theorem renamed_self (h : ∀ s, a.Mentions root s → names.get? s = none) (hi : a.Reaches root i) :
    Renamed names a a i i := by
  induction i using Nat.strongRecOn with
  | ind i ih =>
    have hchild {c : Nat} (hc : c ∈ a.children i) : Renamed names a a c c :=
      ih c (children_lt hc) (hi.trans (reaches_of_mem_children hc))
    refine renamed_iff.2 ⟨?_, fun c hc => ⟨c, hc, hchild hc⟩, fun c hc => ⟨c, hc, hchild hc⟩⟩
    exact (Template.rename_eq_self fun s hs => h s ⟨i, hi, hs⟩).symm

theorem renamed_rename (hroot : root < a.size)
    (hnamed : ∀ s, a.Mentions root s → ((names.get? s).getD s).isNamed = true) :
    (a.rename names root).2 < (a.rename names root).1.size ∧
      Renamed names a (a.rename names root).1 root (a.rename names root).2 := by
  have hover : ∀ i, a.Reaches root i → ((a.template i).rename names).Over (·.isNamed = true) := by
    intro i hi s hs
    obtain ⟨k, hk, rfl⟩ := Template.mem_slots_rename.1 hs
    exact hnamed k ⟨i, hi, hk⟩
  unfold rename
  split
  next hempty =>
    refine ⟨hroot, renamed_self (fun s _ => ?_) (.refl _ root)⟩
    rw [OrderedMap.isEmpty, List.isEmpty_iff] at hempty
    simp [OrderedMap.get?, OrderedMap.find?, hempty]
  · refine (rebuild_induct (fun b => b)
      (P := fun b i j => j < b.size ∧ Renamed names a b i j) (fun b b' i j h hext => ?_)
      (fun b _ i hi images himages => ?_) (Extends.refl a)).2
    · exact ⟨Nat.lt_of_lt_of_le h.1 hext.size_le, h.2.of_extends hext h.1⟩
    · exact ⟨b.extends_intern _ _, b.intern_lt_size _ _, renamed_intern (hover i hi) himages⟩

/-- **Renaming is faithful** if it keeps the slots of the tree apart and leaves none without a name. -/
theorem faithful_rename (hroot : root < a.size)
    (hnames : Set.InjOn (fun s => (names.get? s).getD s) {s | a.Mentions root s})
    (hnamed : ∀ s, a.Mentions root s → ((names.get? s).getD s).isNamed = true) :
    ∃ image, Faithful names image a root (a.rename names root).1 (a.rename names root).2 := by
  obtain ⟨hlt, hrenamed⟩ := renamed_rename hroot hnamed
  exact hrenamed.exists_faithful hnames hroot hlt

/-! ## Names that are given -/

/-- Whether the anonymous slots of a map have names that a source has given: names of numbers that it has
left behind, none reserved, and none given twice. -/
structure Gives (source : NameSource) (names : OrderedMap Slot Slot) : Prop where
  given : ∀ s target, names.get? s = some target → s.isNamed = false ∧
    ∃ n < source.number, target = .named (slotName n) ∧ slotName n ∉ source.reserved
  apart : ∀ s s' target, names.get? s = some target → names.get? s' = some target → s = s'

theorem gives_empty (source : NameSource) : Gives source .empty where
  given _ _ h := nomatch h
  apart _ _ _ h := nomatch h

/-- The next name is not among those that have been given. -/
theorem Gives.next (h : Gives source names) (hslot : slot.isNamed = false) :
    Gives source.next.2 (names.insert slot (.named source.next.1)) := by
  have hle := source.number_le_nextNumber
  have hnew : ∀ s, names.get? s ≠ some (.named source.next.1) := by
    intro s hs
    obtain ⟨-, n, hn, heq, -⟩ := h.given s _ hs
    have hnumber := slotName_injective (Slot.named.inj heq)
    omega
  refine ⟨fun s target hs => ?_, fun s s' target hs hs' => ?_⟩
  · rw [OrderedMap.get?_insert] at hs
    split at hs
    next heq =>
      obtain rfl := eq_of_beq heq
      exact ⟨hslot, _, Nat.lt_succ_self _, (Option.some.inj hs).symm, source.slotName_nextNumber⟩
    · obtain ⟨hanonymous, n, hn, heq, hfree⟩ := h.given s target hs
      exact ⟨hanonymous, n, Nat.lt_succ_of_le (Nat.le_trans (Nat.le_of_lt hn) hle), heq, hfree⟩
  · rw [OrderedMap.get?_insert] at hs hs'
    split at hs <;> split at hs'
    next heq heq' => exact (eq_of_beq heq).symm.trans (eq_of_beq heq')
    · exact absurd (hs'.trans hs.symm) (hnew s')
    · exact absurd (hs.trans hs'.symm) (hnew s)
    · exact h.apart s s' target hs hs'

/-- Naming the slots of a list one after the other gives names of the source. -/
theorem gives_freshNames (slots : List Slot) (h : Gives source names) :
    ∃ last, last.reserved = source.reserved ∧ Gives last (freshNames slots names source) :=
  freshNames_induct (I := fun names last => last.reserved = source.reserved ∧ Gives last names)
    ⟨rfl, h⟩ fun _ _ _ hanonymous _ ⟨hreserved, hgives⟩ => ⟨hreserved, hgives.next hanonymous⟩

/-! ## Naming the slots of a tree -/

/-- The names that the anonymous slots of a tree get. -/
def givenNames (source : NameSource) (a : Arena) (root : Nat) : OrderedMap Slot Slot :=
  freshNames (a.slotsBreadthFirst root) .empty
    (((a.slotsBreadthFirst root).filterMap Slot.name?).foldl NameSource.reserve source)

theorem exists_gives_givenNames (source : NameSource) (a : Arena) (root : Nat) :
    ∃ last, Gives last (givenNames source a root) ∧
      ∀ name, name ∈ last.reserved ↔ a.Mentions root (.named name) ∨ name ∈ source.reserved := by
  obtain ⟨last, hreserved, hgives⟩ := gives_freshNames (a.slotsBreadthFirst root)
    (gives_empty (((a.slotsBreadthFirst root).filterMap Slot.name?).foldl NameSource.reserve source))
  refine ⟨last, hgives, fun name => ?_⟩
  rw [hreserved, NameSource.mem_reserved_foldl, List.mem_filterMap]
  refine or_congr_left ?_
  constructor
  · rintro ⟨s, hs, hname⟩
    cases s with
    | anonymous id => cases hname
    | named name' =>
      obtain rfl := Option.some.inj hname
      exact mem_slotsBreadthFirst.1 hs
  · exact fun h => ⟨.named name, mem_slotsBreadthFirst.2 h, rfl⟩

theorem get?_givenNames_of_isNamed (hs : s.isNamed = true) :
    (givenNames source a root).get? s = none := by
  obtain ⟨last, hgives, -⟩ := exists_gives_givenNames source a root
  by_contra hsome
  obtain ⟨target, htarget⟩ := Option.ne_none_iff_exists'.1 hsome
  rw [(hgives.given s target htarget).1] at hs
  cases hs

/-- An anonymous slot of the tree gets a name that is not reserved and that no slot of the tree has. -/
theorem exists_get?_givenNames (source : NameSource) (hs : a.Mentions root s)
    (hanonymous : s.isNamed = false) : ∃ name, (givenNames source a root).get? s = some (.named name) ∧
      name ∉ source.reserved ∧ ¬ a.Mentions root (.named name) := by
  obtain ⟨last, hgives, hreserved⟩ := exists_gives_givenNames source a root
  have hcontains := contains_freshNames .empty
    (((a.slotsBreadthFirst root).filterMap Slot.name?).foldl NameSource.reserve source)
    (mem_slotsBreadthFirst.2 hs) hanonymous
  rw [OrderedMap.contains_eq_isSome, Option.isSome_iff_exists] at hcontains
  obtain ⟨target, htarget⟩ := hcontains
  obtain ⟨-, n, -, rfl, hfree⟩ := hgives.given s target htarget
  rw [hreserved, not_or] at hfree
  exact ⟨slotName n, htarget, hfree.2, hfree.1⟩

/-- Different slots of the tree have different names. -/
theorem injOn_givenNames (source : NameSource) (a : Arena) (root : Nat) :
    Set.InjOn (fun s => ((givenNames source a root).get? s).getD s) {s | a.Mentions root s} := by
  obtain ⟨last, hgives, -⟩ := exists_gives_givenNames source a root
  have hstays {s : Slot} (hs : s.isNamed = true) :
      ((givenNames source a root).get? s).getD s = s := by
    rw [get?_givenNames_of_isNamed hs, Option.getD_none]
  intro s hs s' hs' heq
  dsimp only at heq
  cases hnamed : s.isNamed <;> cases hnamed' : s'.isNamed
  · obtain ⟨name, hget, -⟩ := exists_get?_givenNames source hs hnamed
    obtain ⟨name', hget', -⟩ := exists_get?_givenNames source hs' hnamed'
    rw [hget, hget', Option.getD_some, Option.getD_some] at heq
    exact hgives.apart s s' _ hget (heq ▸ hget')
  · obtain ⟨name, hget, -, hnew⟩ := exists_get?_givenNames source hs hnamed
    rw [hget, Option.getD_some, hstays hnamed'] at heq
    exact absurd (heq ▸ hs') hnew
  · obtain ⟨name, hget, -, hnew⟩ := exists_get?_givenNames source hs' hnamed'
    rw [hget, Option.getD_some, hstays hnamed] at heq
    exact absurd (heq ▸ hs) hnew
  · rwa [hstays hnamed, hstays hnamed'] at heq

/-- **Naming the slots of a tree is faithful.** The tree that is made is the tree with its slots renamed,
node for node, and the old one stays in its place. Named slots keep their names, every anonymous slot of
the tree gets one, and different slots of the tree have different names; no name that is given is
reserved in the source or is the name of a slot of the tree. So no slot of the new tree is anonymous. -/
theorem naming_faithful (a : Arena) (root : Nat) (source : NameSource) (hroot : root < a.size) :
    (a.nameSlots source root).1.Extends a ∧
      (∀ j, (a.nameSlots source root).1.Reaches (a.nameSlots source root).2 j →
        ((a.nameSlots source root).1.template j).Over (·.isNamed = true)) ∧
      ∃ names image,
        Faithful names image a root (a.nameSlots source root).1 (a.nameSlots source root).2 ∧
        (∀ s, s.isNamed = true → names.get? s = none) ∧
        (∀ s, a.Mentions root s → s.isNamed = false → ∃ name, names.get? s = some (.named name) ∧
          name ∉ source.reserved ∧ ¬ a.Mentions root (.named name)) ∧
        Set.InjOn (fun s => (names.get? s).getD s) {s | a.Mentions root s} := by
  have hnamed : ∀ s, a.Mentions root s →
      (((givenNames source a root).get? s).getD s).isNamed = true := by
    intro s hs
    cases hs' : s.isNamed with
    | true => rwa [get?_givenNames_of_isNamed hs']
    | false =>
      obtain ⟨name, hget, -⟩ := exists_get?_givenNames source hs hs'
      rw [hget]
      rfl
  have hinj := injOn_givenNames source a root
  obtain ⟨image, hfaithful⟩ := faithful_rename hroot hinj hnamed
  exact ⟨extends_rename _ a root, fun j hj => hfaithful.over hnamed hj, givenNames source a root, image,
    hfaithful, fun s => get?_givenNames_of_isNamed, fun s => exists_get?_givenNames source, hinj⟩

/-- Two lines below two nodes with the same text, of which one covers both lines; a slot of these nodes
occurs at the root as well, next to a named one. -/
def markedLines : Arena :=
  let (a, first) := empty.leaf ⟨[.literal "a", .literal "b"]⟩
  let (a, second) := a.leaf ⟨[.literal "a", .literal "c"]⟩
  let (a, left) := a.intern ⟨[.literal "a", .slot (.anonymous 0)]⟩ [first]
  let (a, right) := a.intern ⟨[.literal "a", .slot (.anonymous 1)]⟩ [first, second]
  (a.intern ⟨[.slot (.named "A"), .slot (.anonymous 0)]⟩ [left, right]).1

/-- The names "A" and "B" are left out, and the two nodes with the same text stay apart. -/
theorem naming_faithful_of_markedLines :
    4 < markedLines.size ∧
      (markedLines.nameSlots (.skipping ["B"]) 4).1.template
          (markedLines.nameSlots (.skipping ["B"]) 4).2 =
        ⟨[.slot (.named "A"), .slot (.named "C")]⟩ ∧
      ∃ names image, Faithful names image markedLines 4
          (markedLines.nameSlots (.skipping ["B"]) 4).1
          (markedLines.nameSlots (.skipping ["B"]) 4).2 ∧
        image 2 ≠ image 3 := by
  have hroot : 4 < markedLines.size := by decide +kernel
  obtain ⟨-, -, names, image, hfaithful, -⟩ :=
    naming_faithful markedLines 4 (.skipping ["B"]) hroot
  have hleft : markedLines.Reaches 4 2 := mem_descendants.1 (by decide +kernel)
  have hright : markedLines.Reaches 4 3 := mem_descendants.1 (by decide +kernel)
  refine ⟨hroot, by decide +kernel, names, image, hfaithful, fun hsame => ?_⟩
  exact absurd (hfaithful.nodes.injOn hleft hright hsame) (by decide)

end GrammarInduction.Arena
