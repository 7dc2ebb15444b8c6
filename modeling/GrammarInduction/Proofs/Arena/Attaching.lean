import GrammarInduction.Proofs.Arena.Widening

/-!
# What a lattice keeps

The lattice is made by a walk over old and new edges that remembers the nodes that it has made and leaves
out edges back to nodes that are entered and not left.

* `Attaching`: what holds of the nodes made so far. Each is made over those for its old and new children, but
  for some that lead back to it (`Made.edge`), and these are made or entered (`closed`). It is kept when a
  node is entered and when it is left; from this, `attaches_attach` is the induction along the walk.
* `Widens`: how the lattice stands to its tree in the end (`exists_widens`).
* `lattice_keeps_edges`: the lattice has a node for every node of the tree and no others, and all edges that
  close no cycle. If each inner node has such an edge, its leaves are leaves of the tree.
* `lattice_changes_leaves`: a leaf with slots can get a child, and on a cycle an inner node can lose its
  only one.
-/

namespace GrammarInduction.Arena

open Walk

variable {a b : Arena} {root i j c l : Nat} {t : Template}

/-! ## Nodes made so far -/

section Attaching

variable {extra : List (Nat × Nat)} {path starts : List Nat} {s s' s'' : Arena × List (Nat × Nat)}

/-- The nodes entered and not left, the innermost first, and a node that they all lead to. -/
structure Path (a : Arena) (extra : List (Nat × Nat)) (path : List Nat) (i : Nat) : Prop where
  nodup : (i :: path).Nodup
  lt : ∀ p ∈ i :: path, p < a.size
  leads : ∀ p ∈ i :: path, Walk.Reaches (a.childrenWith extra) p i

theorem Path.length_lt (h : a.Path extra path i) : path.length < a.size := by
  have hsub : i :: path ⊆ List.range a.size := fun p hp => List.mem_range.2 (h.lt p hp)
  have hle := (List.subperm_of_subset h.nodup hsub).length_le
  rwa [List.length_range, List.length_cons] at hle

theorem Path.cons (h : a.Path extra path i) (hc : c ∈ a.childrenWith extra i) (hlt : c < a.size)
    (hnew : c ∉ i :: path) : a.Path extra (i :: path) c where
  nodup := List.nodup_cons.2 ⟨hnew, h.nodup⟩
  lt := List.forall_mem_cons.2 ⟨hlt, h.lt⟩
  leads := List.forall_mem_cons.2 ⟨.refl _ _, fun p hp => (h.leads p hp).trans (reaches_of_mem hc)⟩

/-- The node made for a node, over the nodes for its old and new children but for some that lead back
to it. -/
structure Made (a : Arena) (extra : List (Nat × Nat)) (s : Arena × List (Nat × Nat)) (i j : Nat) :
    Prop where
  lt : j < s.1.size
  template : (s.1.template j == a.template i) = true
  child : ∀ k ∈ s.1.children j, ∃ c ∈ a.childrenWith extra i, s.2.lookup c = some k
  edge : ∀ c ∈ a.childrenWith extra i,
    Walk.Reaches (a.childrenWith extra) c i ∨ ∃ k ∈ s.1.children j, s.2.lookup c = some k

/-- A state in which more nodes are made, each at or below the node for one of the starts. -/
structure Later (starts : List Nat) (s s' : Arena × List (Nat × Nat)) : Prop where
  extends_ : s'.1.Extends s.1
  known : ∀ i j, s.2.lookup i = some j → s'.2.lookup i = some j
  below : ∀ i j, s'.2.lookup i = some j → s.2.lookup i = some j ∨
    ∃ c ∈ starts, ∃ k, s'.2.lookup c = some k ∧ s'.1.Reaches k j

theorem later_refl (starts : List Nat) (s : Arena × List (Nat × Nat)) : Later starts s s :=
  ⟨.refl _, fun _ _ h => h, fun _ _ h => .inl h⟩

theorem Made.of_later (h : Made a extra s i j) (hs : Later starts s s') : Made a extra s' i j where
  lt := Nat.lt_of_lt_of_le h.lt hs.extends_.size_le
  template := by rw [hs.extends_.template h.lt, h.template]
  child k hk := by
    rw [hs.extends_.children h.lt] at hk
    obtain ⟨c, hc, hck⟩ := h.child k hk
    exact ⟨c, hc, hs.known c k hck⟩
  edge c hc := by
    rw [hs.extends_.children h.lt]
    exact (h.edge c hc).imp_right fun ⟨k, hk, hck⟩ => ⟨k, hk, hs.known c k hck⟩

/-- What holds of the nodes made so far, while those of a path are entered and not left. -/
structure Attaching (a : Arena) (extra : List (Nat × Nat)) (path : List Nat)
    (s : Arena × List (Nat × Nat)) : Prop where
  extends_ : s.1.Extends a
  made : ∀ i j, s.2.lookup i = some j → Made a extra s i j
  closed : ∀ i j, s.2.lookup i = some j → ∀ c ∈ a.childrenWith extra i,
    c ∈ path ∨ ∃ k, s.2.lookup c = some k
  unmade : ∀ p ∈ path, s.2.lookup p = none

theorem attaching_start (a : Arena) (extra : List (Nat × Nat)) : a.Attaching extra [] (a, []) where
  extends_ := .refl a
  made _ _ h := nomatch h
  closed _ _ h := nomatch h
  unmade _ h := nomatch h

theorem Attaching.enter (h : a.Attaching extra path s) (hi : s.2.lookup i = none) :
    a.Attaching extra (i :: path) s where
  extends_ := h.extends_
  made := h.made
  closed k j hk c hc := (h.closed k j hk c hc).imp_left (.tail _)
  unmade := List.forall_mem_cons.2 ⟨hi, h.unmade⟩

theorem lookup_cons_iff {known : List (Nat × Nat)} {k m : Nat} (h : known.lookup i = none) :
    ((i, j) :: known).lookup k = some m ↔ k = i ∧ j = m ∨ known.lookup k = some m := by
  rw [List.lookup_cons]
  split
  next heq =>
    obtain rfl := eq_of_beq heq
    simp [h]
  next hne => simp [ne_of_beq_false hne]

section Leave

variable {below images : List Nat} {r : Arena × Nat}

theorem Attaching.later (h : a.Attaching extra (i :: path) s)
    (hr : s.1.intern (a.template i) images = r) : Later [i] s (r.1, (i, r.2) :: s.2) := by
  have hlookup (k m : Nat) : ((i, r.2) :: s.2).lookup k = some m ↔
      k = i ∧ r.2 = m ∨ s.2.lookup k = some m := lookup_cons_iff (h.unmade i List.mem_cons_self)
  refine ⟨hr ▸ s.1.extends_intern _ _, fun k m hk => (hlookup k m).2 (.inr hk), fun k m hk => ?_⟩
  rcases (hlookup k m).1 hk with ⟨rfl, rfl⟩ | hk
  · exact .inr ⟨k, List.mem_singleton_self k, r.2, hk, .refl _ _⟩
  · exact .inl hk

theorem entered_or_made
    (hbelow : (a.childrenWith extra i).filter (fun c => !(i :: path).contains c) = below)
    (himages : List.Forall₂ (fun c k => s.2.lookup c = some k) below images)
    (hc : c ∈ a.childrenWith extra i) : c ∈ i :: path ∨ ∃ k ∈ images, s.2.lookup c = some k := by
  by_cases hentered : c ∈ i :: path
  · exact .inl hentered
  · refine .inr (exists_of_mem_left himages ?_)
    rw [← hbelow]
    exact List.mem_filter.2 ⟨hc, by simpa using hentered⟩

theorem Attaching.mem_children_iff (h : a.Attaching extra path s)
    (himages : List.Forall₂ (fun c k => s.2.lookup c = some k) below images)
    (hr : s.1.intern t images = r) {k : Nat} : k ∈ r.1.children r.2 ↔ k ∈ images :=
  hr ▸ mem_children_intern (forall_mem_right himages fun c k hck => (h.made c k hck).lt)

theorem Attaching.made_intern (h : a.Attaching extra (i :: path) s) (hpath : a.Path extra path i)
    (hbelow : (a.childrenWith extra i).filter (fun c => !(i :: path).contains c) = below)
    (himages : List.Forall₂ (fun c k => s.2.lookup c = some k) below images)
    (hr : s.1.intern (a.template i) images = r) : Made a extra (r.1, (i, r.2) :: s.2) i r.2 := by
  have hlater := h.later hr
  refine ⟨hr ▸ s.1.intern_lt_size _ _, hr ▸ (s.1.intern_same _ _).2, fun k hk => ?_, fun c hc => ?_⟩
  · obtain ⟨c, hc, hck⟩ := exists_of_mem_right himages ((h.mem_children_iff himages hr).1 hk)
    rw [← hbelow] at hc
    exact ⟨c, (List.mem_filter.1 hc).1, hlater.known c k hck⟩
  · rcases entered_or_made hbelow himages hc with hentered | ⟨k, hk, hck⟩
    · exact .inl (hpath.leads c hentered)
    · exact .inr ⟨k, (h.mem_children_iff himages hr).2 hk, hlater.known c k hck⟩

/-- A node is left with a node made for it, over those made for its children. -/
theorem Attaching.leave (h : a.Attaching extra (i :: path) s) (hpath : a.Path extra path i)
    (hbelow : (a.childrenWith extra i).filter (fun c => !(i :: path).contains c) = below)
    (himages : List.Forall₂ (fun c k => s.2.lookup c = some k) below images)
    (hr : s.1.intern (a.template i) images = r) :
    a.Attaching extra path (r.1, (i, r.2) :: s.2) := by
  have hlater := h.later hr
  have hlookup (k m : Nat) : ((i, r.2) :: s.2).lookup k = some m ↔
      k = i ∧ r.2 = m ∨ s.2.lookup k = some m := lookup_cons_iff (h.unmade i List.mem_cons_self)
  have hdone (c : Nat) (hc : c ∈ i :: path ∨ ∃ k, s.2.lookup c = some k) :
      c ∈ path ∨ ∃ k, ((i, r.2) :: s.2).lookup c = some k := by
    rcases hc with hc | ⟨k, hk⟩
    · rcases List.mem_cons.1 hc with rfl | hc
      · exact .inr ⟨r.2, (hlookup c r.2).2 (.inl ⟨rfl, rfl⟩)⟩
      · exact .inl hc
    · exact .inr ⟨k, hlater.known c k hk⟩
  refine ⟨hlater.extends_.trans h.extends_, fun k m hk => ?_, fun k m hk c hc => hdone c ?_,
    fun p hp => ?_⟩
  · rcases (hlookup k m).1 hk with ⟨rfl, rfl⟩ | hk
    · exact h.made_intern hpath hbelow himages hr
    · exact (h.made k m hk).of_later hlater
  · rcases (hlookup k m).1 hk with ⟨rfl, rfl⟩ | hk
    · exact (entered_or_made hbelow himages hc).imp_right fun ⟨n, _, hn⟩ => ⟨n, hn⟩
    · exact h.closed k m hk c hc
  · have hne : p ≠ i := fun heq => (List.nodup_cons.1 hpath.nodup).1 (heq ▸ hp)
    rw [List.lookup_cons, beq_false_of_ne hne]
    exact h.unmade p (.tail _ hp)

end Leave

theorem Later.append (h : Later starts s s') (hs' : a.Attaching extra path s') (hc : c ∈ starts)
    (h' : Later [c] s' s'') : Later starts s s'' where
  extends_ := h'.extends_.trans h.extends_
  known k m hk := h'.known k m (h.known k m hk)
  below k m hk := by
    rcases h'.below k m hk with hk | ⟨d, hd, n, hn, hnm⟩
    · refine (h.below k m hk).imp_right fun ⟨d, hd, n, hn, hnm⟩ => ⟨d, hd, n, h'.known d n hn, ?_⟩
      exact (h'.extends_.reaches_iff (hs'.made d n hn).lt).2 hnm
    · exact .inr ⟨d, List.mem_singleton.1 hd ▸ hc, n, hn, hnm⟩

/-- What attaching a node comes to. -/
structure Attaches (a : Arena) (extra : List (Nat × Nat)) (path : List Nat)
    (s : Arena × List (Nat × Nat)) (i : Nat) (r : (Arena × List (Nat × Nat)) × Nat) : Prop where
  later : Later [i] s r.1
  attaching : a.Attaching extra path r.1
  image : r.1.2.lookup i = some r.2

/-- Attaching the children of a node, and then leaving it, attaches the node. -/
theorem Later.attaches {below images : List Nat} {r : Arena × Nat} (h : Later below s s')
    (hs' : a.Attaching extra (i :: path) s') (hpath : a.Path extra path i)
    (hbelow : (a.childrenWith extra i).filter (fun c => !(i :: path).contains c) = below)
    (himages : List.Forall₂ (fun c k => s'.2.lookup c = some k) below images)
    (hr : s'.1.intern (a.template i) images = r) :
    a.Attaches extra path s i ((r.1, (i, r.2) :: s'.2), r.2) := by
  have hlater := hs'.later hr
  have himage : ((i, r.2) :: s'.2).lookup i = some r.2 := by simp
  refine ⟨⟨hlater.extends_.trans h.extends_, fun k m hk => hlater.known k m (h.known k m hk),
    fun k m hk => ?_⟩, hs'.leave hpath hbelow himages hr, himage⟩
  rcases hlater.below k m hk with hk | hnew
  · refine (h.below k m hk).imp_right fun ⟨c, hc, n, hn, hnm⟩ =>
      ⟨i, List.mem_singleton_self i, r.2, himage, ?_⟩
    obtain ⟨n', hn', hcn⟩ := exists_of_mem_left himages hc
    obtain rfl : n = n' := Option.some.inj (hn.symm.trans hcn)
    have hchild := (hs'.mem_children_iff himages hr).2 hn'
    exact .head hchild ((hlater.extends_.reaches_iff (hs'.made c n hn).lt).2 hnm)
  · exact .inr hnew

/-- **Every node is attached**, if the steps and the path above it together are as many as the nodes. -/
theorem attaches_attach (hnext : ∀ i < a.size, ∀ c ∈ a.childrenWith extra i, c < a.size)
    (steps : Nat) (hpath : a.Path extra path i) (hsteps : a.size ≤ path.length + steps)
    (hs : a.Attaching extra path s) :
    a.Attaches extra path s i (a.attach extra steps path s i) := by
  induction steps generalizing path s i with
  | zero => exact absurd hpath.length_lt (Nat.not_lt.2 hsteps)
  | succ steps ih =>
    obtain ⟨b, known⟩ := s
    simp only [attach]
    split
    next image himage => exact ⟨later_refl _ _, hs, himage⟩
    next hunmade =>
      generalize hbelow : (a.childrenWith extra i).filter (fun c => !(i :: path).contains c) = below
      have hchild : ∀ c ∈ below, a.Path extra (i :: path) c := by
        intro c hc
        rw [← hbelow] at hc
        obtain ⟨hc, hfresh⟩ := List.mem_filter.1 hc
        exact hpath.cons hc (hnext i (hpath.lt i List.mem_cons_self) c hc) (by simpa using hfresh)
      generalize hr : below.foldl _ ((b, known), []) = r
      obtain ⟨⟨hattaching, hlater⟩, himages⟩ := foldl_collect
        (I := fun s => a.Attaching extra (i :: path) s ∧ Later below (b, known) s)
        (R := fun s c k => s.2.lookup c = some k)
        (fun s hs c hc => by
          obtain ⟨hs, hlater⟩ := hs
          have hattaches := ih (hchild c hc) (by rw [List.length_cons]; omega) hs
          exact ⟨⟨hattaches.attaching, hlater.append hs hc hattaches.later⟩, hattaches.image,
            hattaches.later.known⟩)
        ⟨hs.enter hunmade, later_refl _ _⟩ .nil hr
      exact hlater.attaches hattaching hpath hbelow himages rfl

end Attaching

/-! ## Lattices -/

/-- How a lattice stands to its tree: each node has an image, over those of its old and new children but for
some that lead back to it. -/
structure Widens (a : Arena) (root : Nat) (b : Arena) (image : Nat → Nat) : Prop where
  extends_ : b.Extends a
  reached : ∀ i, a.Reaches root i → b.Reaches (image root) (image i)
  lt : ∀ i, a.Reaches root i → image i < b.size
  template : ∀ i, a.Reaches root i → (b.template (image i) == a.template i) = true
  child : ∀ i, a.Reaches root i → ∀ k ∈ b.children (image i), ∃ c ∈ a.widened root i, image c = k
  edge : ∀ i, a.Reaches root i → ∀ c ∈ a.widened root i,
    Walk.Reaches (a.widened root) c i ∨ image c ∈ b.children (image i)

theorem exists_widens (hroot : root < a.size) (h : a.Covering root) :
    ∃ image : Nat → Nat, image root = (a.lattice root).2 ∧ a.Widens root (a.lattice root).1 image := by
  have hnext : ∀ i < a.size, ∀ c ∈ a.widened root i, c < a.size := by
    intro i hi c hc
    rcases (mem_widened_iff h).1 hc with hc | hnew
    · exact Nat.lt_trans (children_lt hc) hi
    · exact hnew.child.lt_size hroot
  have hpath : a.Path (a.newEdges root) [] root :=
    ⟨List.nodup_singleton root, by simpa using hroot, by simpa using Walk.Reaches.refl _ root⟩
  obtain ⟨hlater, hdone, hlookup⟩ := attaches_attach hnext (a.size + 1) hpath
    (by rw [List.length_nil]; omega) (attaching_start a _)
  generalize hr : a.attach (a.newEdges root) (a.size + 1) [] (a, []) root = r at hlater hdone hlookup
  obtain ⟨⟨b, known⟩, j⟩ := r
  have hlattice : a.lattice root = (b, j) := by rw [lattice, hr]
  -- no node being entered any more, what is known is closed under old and new edges
  have hknown (i : Nat) (hi : a.Reaches root i) : ∃ k, known.lookup i = some k := by
    apply hi.induct (P := fun i => ∃ k, known.lookup i = some k) ⟨j, hlookup⟩
    rintro i ⟨k, hk⟩ c hc
    exact (hdone.closed i k hk c ((mem_widened_iff h).2 (.inl hc))).resolve_left List.not_mem_nil
  let image (i : Nat) : Nat := (known.lookup i).getD root
  have himage {i k : Nat} (hi : known.lookup i = some k) : image i = k := by simp [image, hi]
  have hmade (i : Nat) (hi : a.Reaches root i) : Made a (a.newEdges root) (b, known) i (image i) := by
    obtain ⟨k, hk⟩ := hknown i hi
    exact (himage hk).symm ▸ hdone.made i k hk
  rw [hlattice]
  refine ⟨image, himage hlookup, hdone.extends_, fun i hi => ?_, fun i hi => (hmade i hi).lt,
    fun i hi => (hmade i hi).template, fun i hi k hk => ?_, fun i hi c hc => ?_⟩
  · obtain ⟨k, hk⟩ := hknown i hi
    rcases hlater.below i k hk with hk | ⟨c, hc, n, hn, hnk⟩
    · exact nomatch hk
    · rwa [himage hk, ← List.mem_singleton.1 hc, himage hn]
  · obtain ⟨c, hc, hk⟩ := (hmade i hi).child k hk
    exact ⟨c, hc, himage hk⟩
  · refine ((hmade i hi).edge c hc).imp_right fun ⟨k, hk, hck⟩ => ?_
    rwa [himage hck]

section Widens

variable {image : Nat → Nat}

/-- The nodes of the lattice are the images of those of the tree. -/
theorem Widens.reaches_iff (hw : a.Widens root b image) (h : a.Covering root) :
    b.Reaches (image root) j ↔ ∃ i, a.Reaches root i ∧ image i = j := by
  constructor
  · intro hj
    refine hj.induct (P := fun j => ∃ i, a.Reaches root i ∧ image i = j) ⟨root, .refl _ _, rfl⟩ ?_
    rintro _ ⟨i, hi, rfl⟩ k hk
    obtain ⟨c, hc, rfl⟩ := hw.child i hi k hk
    exact ⟨c, (of_reaches_widened h hi (reaches_of_mem hc)).1, rfl⟩
  · rintro ⟨i, hi, rfl⟩
    exact hw.reached i hi

theorem Widens.edge_of_not_closing (hw : a.Widens root b image) (h : a.Covering root)
    (hi : a.Reaches root i) (hc : c ∈ a.children i) (hclosing : ¬ Closing a root i c) :
    image c ∈ b.children (image i) :=
  (hw.edge i hi c ((mem_widened_iff h).2 (.inl hc))).resolve_left
    fun hback => hclosing ((reaches_widened_iff h hi hc).1 hback)

theorem Widens.edge_of_newParent (hw : a.Widens root b image) (h : a.Covering root)
    (hnew : NewParent a root i c) (hcovers : (a.template c).covers (a.template i) = false) :
    image c ∈ b.children (image i) := by
  refine (hw.edge i hnew.parent c ((mem_widened_iff h).2 (.inr hnew))).resolve_left fun hback => ?_
  exact Bool.noConfusion (hcovers.symm.trans (of_reaches_widened h hnew.child hback).2)

/-- A leaf whose image has no children is its own image. -/
theorem Widens.image_eq (hw : a.Widens root b image) (hroot : root < a.size) (hl : l ∈ a.leaves root)
    (hleaf : b.isLeaf (image l) = true) : image l = l := by
  obtain ⟨hl, hchildren⟩ := mem_leaves.1 hl
  have hsize := hl.lt_size hroot
  refine eq_of_same (hw.lt l hl) (Nat.lt_of_lt_of_le hsize hw.extends_.size_le) ?_ ?_
  · rw [isLeaf_iff.1 hleaf, hw.extends_.children hsize, isLeaf_iff.1 hchildren]
  · rw [hw.extends_.template hsize, hw.template l hl]

/-- A leaf that gets no child stays. -/
theorem Widens.mem_leaves_of_no_child (hw : a.Widens root b image) (hroot : root < a.size)
    (h : a.Covering root) (hl : l ∈ a.leaves root) (hnone : ∀ d, ¬ NewParent a root l d) :
    image l = l ∧ l ∈ b.leaves (image root) := by
  obtain ⟨hrl, hchildren⟩ := mem_leaves.1 hl
  have hleaf : b.isLeaf (image l) = true := by
    rw [isLeaf_iff, List.eq_nil_iff_forall_not_mem]
    intro k hk
    obtain ⟨c, hc, -⟩ := hw.child l hrl k hk
    rcases (mem_widened_iff h).1 hc with hc | hnew
    · exact not_mem_children_of_isLeaf hchildren hc
    · exact hnone c hnew
  have himage := hw.image_eq hroot hl hleaf
  have hmem := mem_leaves.2 ⟨hw.reached l hrl, hleaf⟩
  rw [himage] at hmem
  exact ⟨himage, hmem⟩

/-- There are no new leaves if each inner node has an edge that closes no cycle. -/
theorem Widens.mem_leaves_of_mem (hw : a.Widens root b image) (hroot : root < a.size)
    (h : a.Covering root)
    (hopen : ∀ i, a.Reaches root i → a.isLeaf i = false → ∃ c ∈ a.children i, ¬ Closing a root i c)
    (hl : l ∈ b.leaves (image root)) : l ∈ a.leaves root := by
  obtain ⟨hreaches, hleaf⟩ := mem_leaves.1 hl
  obtain ⟨i, hi, rfl⟩ := (hw.reaches_iff h).1 hreaches
  cases hchildren : a.isLeaf i with
  | true =>
    have hi : i ∈ a.leaves root := mem_leaves.2 ⟨hi, hchildren⟩
    rwa [hw.image_eq hroot hi hleaf]
  | false =>
    obtain ⟨c, hc, hclosing⟩ := hopen i hi hchildren
    exact absurd (hw.edge_of_not_closing h hi hc hclosing) (not_mem_children_of_isLeaf hleaf)

end Widens

/-- **A lattice adds edges to a tree.** Each node of the tree has an image with its template, and the lattice
has no other nodes; under an image there are only images of old and of new children. All edges are there
that close no cycle: of the tree, those to a child that does not cover its parent or the parent of which
gets no new parent that it covers; of the new ones, those to a child that does not cover its parent.
A leaf without slots gets no child, and a leaf that gets none stays. If each inner node has an edge that
closes no cycle, there are no new leaves, so that the leaves are the same if none of them gets a child. -/
theorem lattice_keeps_edges (hroot : root < a.size) (h : a.Covering root) :
    ∃ image : Nat → Nat, image root = (a.lattice root).2 ∧
      (∀ j, (a.lattice root).1.Reaches (a.lattice root).2 j ↔ ∃ i, a.Reaches root i ∧ image i = j) ∧
      (∀ i, a.Reaches root i →
        ((a.lattice root).1.template (image i) == a.template i) = true ∧
        (∀ k ∈ (a.lattice root).1.children (image i),
          ∃ c, (c ∈ a.children i ∨ NewParent a root i c) ∧ image c = k) ∧
        (∀ c ∈ a.children i, ¬ Closing a root i c →
          image c ∈ (a.lattice root).1.children (image i)) ∧
        (∀ c, NewParent a root i c → (a.template c).covers (a.template i) = false →
          image c ∈ (a.lattice root).1.children (image i))) ∧
      (∀ l ∈ a.leaves root, (a.template l).hasSlots = false → ∀ d, ¬ NewParent a root l d) ∧
      (∀ l ∈ a.leaves root, (∀ d, ¬ NewParent a root l d) →
        image l = l ∧ l ∈ (a.lattice root).1.leaves (a.lattice root).2) ∧
      ((∀ i, a.Reaches root i → a.isLeaf i = false →
          ∃ c ∈ a.children i, ¬ Closing a root i c) →
        (∀ l ∈ (a.lattice root).1.leaves (a.lattice root).2, l ∈ a.leaves root) ∧
        ((∀ l ∈ a.leaves root, ∀ d, ¬ NewParent a root l d) →
          ∀ l, l ∈ (a.lattice root).1.leaves (a.lattice root).2 ↔ l ∈ a.leaves root)) := by
  obtain ⟨image, himage, hw⟩ := exists_widens hroot h
  rw [← himage]
  refine ⟨image, rfl, fun j => hw.reaches_iff h, fun i hi => ⟨hw.template i hi, fun k hk => ?_,
    fun c hc hclosing => hw.edge_of_not_closing h hi hc hclosing,
    fun c hnew hcovers => hw.edge_of_newParent h hnew hcovers⟩, fun l hl hfree d => ?_,
    fun l hl hnone => hw.mem_leaves_of_no_child hroot h hl hnone, fun hopen => ⟨fun l hl => ?_, ?_⟩⟩
  · obtain ⟨c, hc, hck⟩ := hw.child i hi k hk
    exact ⟨c, (mem_widened_iff h).1 hc, hck⟩
  · exact not_newParent_of_free h hroot (mem_leaves.1 hl).2 hfree
  · exact hw.mem_leaves_of_mem hroot h hopen hl
  · intro hnone l
    exact ⟨hw.mem_leaves_of_mem hroot h hopen,
      fun hl => (hw.mem_leaves_of_no_child hroot h hl (hnone l hl)).2⟩

/-- The second of the two lines comes below "a" with a slot as well, and the leaves are the same. -/
theorem lattice_keeps_edges_of_twoLines :
    (3 < twoLines.size ∧ twoLines.Covering 3) ∧ NewParent twoLines 3 2 1 ∧
      ∃ image : Nat → Nat, image 3 = (twoLines.lattice 3).2 ∧
        image 0 ∈ (twoLines.lattice 3).1.children (image 2) ∧
        image 1 ∈ (twoLines.lattice 3).1.children (image 2) ∧
        ∀ l, l ∈ (twoLines.lattice 3).1.leaves (twoLines.lattice 3).2 ↔ l ∈ twoLines.leaves 3 := by
  have hroot : 3 < twoLines.size := by decide +kernel
  have h : twoLines.Covering 3 := covering_of_edges (by decide +kernel)
  have hnew : NewParent twoLines 3 2 1 := (mem_newEdges_iff h).1 (by decide +kernel)
  have hinner : twoLines.Reaches 3 2 := mem_descendants.1 (by decide +kernel)
  obtain ⟨image, himage, -, hnodes, hfree, -, hleaves⟩ := lattice_keeps_edges hroot h
  obtain ⟨-, -, hold, hadded⟩ := hnodes 2 hinner
  -- no child covers its parent, and both lines are without slots
  have hopen : ∀ i ∈ twoLines.descendants 3, twoLines.isLeaf i = false →
      ∃ c ∈ twoLines.children i, ¬ (twoLines.template c).covers (twoLines.template i) = true := by
    decide +kernel
  have hslots : ∀ l ∈ twoLines.leaves 3, (twoLines.template l).hasSlots = false := by decide +kernel
  refine ⟨⟨hroot, h⟩, hnew, image, himage, ?_, hadded 1 hnew (by decide +kernel), ?_⟩
  · refine hold 0 (by decide +kernel) fun hclosing => ?_
    exact absurd hclosing.1 (by decide +kernel)
  · refine (hleaves fun i hi hinner => ?_).2 fun l hl => hfree l hl (hslots l hl)
    obtain ⟨c, hc, hcovers⟩ := hopen i (mem_descendants.2 hi) hinner
    exact ⟨c, hc, fun hclosing => hcovers hclosing.1⟩

/-- The leaves "a" with a slot and "a b" below a slot. -/
def slottedLeaf : Arena :=
  let (a, first) := empty.leaf ⟨[.literal "a", .slot (.named "X")]⟩
  let (a, second) := a.leaf ⟨[.literal "a", .literal "b"]⟩
  (a.intern ⟨[.slot (.named "R")]⟩ [first, second]).1

/-- The lines "a 1" and "a 2", each below "a" with a slot of its own, and the first of these nodes below
"a" with a third slot, all below a slot. -/
def rivals : Arena :=
  let (a, first) := empty.leaf ⟨[.literal "a", .literal "1"]⟩
  let (a, second) := a.leaf ⟨[.literal "a", .literal "2"]⟩
  let (a, lower) := a.intern ⟨[.literal "a", .slot (.named "X")]⟩ [first]
  let (a, other) := a.intern ⟨[.literal "a", .slot (.named "Y")]⟩ [second]
  let (a, upper) := a.intern ⟨[.literal "a", .slot (.named "Z")]⟩ [lower]
  (a.intern ⟨[.slot (.named "R")]⟩ [lower, other, upper]).1

/-- The leaf with a slot covers the other one and gets it as its child. The three nodes with the same shape
cover one another: the walk enters the lower one first, comes from there over the other one to the upper
one, and leaves out the only edge of that, which leads back to the lower one. -/
theorem lattice_changes_leaves :
    (2 < slottedLeaf.size ∧ slottedLeaf.Covering 2 ∧ slottedLeaf.leaves 2 = [0, 1] ∧
      (slottedLeaf.lattice 2).1.leaves (slottedLeaf.lattice 2).2 = [1]) ∧
    5 < rivals.size ∧ rivals.Covering 5 ∧ rivals.leaves 5 = [0, 1] ∧
      (rivals.lattice 5).1.leaves (rivals.lattice 5).2 = [6, 0, 1] ∧
      (rivals.lattice 5).1.template 6 = rivals.template 4 := by
  refine ⟨⟨?_, covering_of_edges ?_, ?_, ?_⟩, ?_, covering_of_edges ?_, ?_, ?_, ?_⟩ <;> decide +kernel

end GrammarInduction.Arena
