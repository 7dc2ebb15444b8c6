import GrammarInduction.Proofs.Arena.Covering

/-!
# New parents in a lattice

A lattice gives a node new parents, the most specific nodes elsewhere that cover it. Old and new edges
together may form cycles, and the lattice leaves out edges on these, new ones or old ones.

* `NewParent a root s d`: the lattice is to have an edge from `s` to `d` (`mem_newEdges_iff`). No leaf
  without slots gets a child (`not_newParent_of_free`).
* `Closing a root i c`: the child `c` of `i` covers its parent, and the parent gets a new parent that it
  covers. These are the old edges that lie on a cycle (`reaches_widened_iff`).
-/

namespace GrammarInduction.Arena

open Walk

variable {a b : Arena} {root i j c d l s x y : Nat} {t : Template}

/-! ## New edges -/

/-- A node of the tree that covers another one, not below it, as none of its children does. -/
structure NewParent (a : Arena) (root s d : Nat) : Prop where
  parent : a.Reaches root s
  child : a.Reaches root d
  covers : (a.template s).covers (a.template d) = true
  specific : ∀ c ∈ a.children s, (a.template c).covers (a.template d) = false
  apart : ¬ a.Reaches d s

/-- The search for what covers a template comes to every node that does. -/
theorem reaches_coveringChildren (h : a.Covering i) (his : a.Reaches i s)
    (hs : (a.template s).covers t = true) : Walk.Reaches (a.coveringChildren t) i s := by
  induction i using Nat.strongRecOn with
  | ind i ih =>
    rcases reaches_iff_eq_or.1 his with rfl | ⟨c, hc, hcs⟩
    · exact .refl _ _
    · have hcovering := h.of_reaches (reaches_of_mem_children hc)
      have hcovers := Template.covers_trans (hcovering.covers hcs) hs
      exact .head (List.mem_filter.2 ⟨hc, hcovers⟩) (ih c (children_lt hc) hcovering hcs)

theorem coveringChildren_eq_nil_iff :
    a.coveringChildren t i = [] ↔ ∀ c ∈ a.children i, (a.template c).covers t = false := by
  simp [coveringChildren]

/-- Below a node that covers a template, there is a most specific one. -/
theorem exists_coveringChildren_eq_nil (hi : (a.template i).covers t = true) :
    ∃ s, a.Reaches i s ∧ (a.template s).covers t = true ∧
      ∀ c ∈ a.children s, (a.template c).covers t = false := by
  induction i using Nat.strongRecOn with
  | ind i ih =>
    by_cases hnil : a.coveringChildren t i = []
    · exact ⟨i, .refl _ _, hi, coveringChildren_eq_nil_iff.1 hnil⟩
    · obtain ⟨c, hc⟩ := List.exists_mem_of_ne_nil _ hnil
      obtain ⟨hc, hcovers⟩ := List.mem_filter.1 hc
      obtain ⟨s, hs, hmost⟩ := ih c (children_lt hc) hcovers
      exact ⟨s, (reaches_of_mem_children hc).trans hs, hmost⟩

/-- **The new edges of a lattice.** -/
theorem mem_newEdges_iff (h : a.Covering root) : (s, d) ∈ a.newEdges root ↔ NewParent a root s d := by
  have hmem : (s, d) ∈ a.newEdges root ↔
      a.Reaches root d ∧ s ∈ a.mostSpecific root (a.template d) ∧ ¬ a.Reaches d s := by
    simp [newEdges, mem_descendants]
  rw [hmem, mem_mostSpecific, coveringChildren_eq_nil_iff]
  constructor
  · rintro ⟨hd, ⟨hsearch, hspecific⟩, hapart⟩
    obtain ⟨hs, hcovers⟩ := of_reaches_coveringChildren hsearch
    refine ⟨hs, hd, ?_, hspecific, hapart⟩
    rcases hcovers with rfl | hcovers
    · exact h.covers hd
    · exact hcovers
  · intro hnew
    have hsearch := reaches_coveringChildren h hnew.parent hnew.covers
    exact ⟨hnew.child, ⟨hsearch, hnew.specific⟩, hnew.apart⟩

/-- A leaf without slots gets no child: what it covers has its template, and so has a leaf below that. -/
theorem not_newParent_of_free (h : a.Covering root) (hroot : root < a.size) (hl : a.isLeaf l = true)
    (hfree : (a.template l).hasSlots = false) : ¬ NewParent a root l d := by
  intro hnew
  have hd := Template.eq_of_covers_of_not_hasSlots hnew.covers hfree
  obtain ⟨m, hm⟩ := a.exists_mem_leaves d
  obtain ⟨hdm, hleaf⟩ := mem_leaves.1 hm
  have hm := Template.eq_of_covers_of_not_hasSlots ((h.of_reaches hnew.child).covers hdm) (hd ▸ hfree)
  have hsame : m = l := eq_of_same ((hnew.child.trans hdm).lt_size hroot) (hnew.parent.lt_size hroot)
    ((isLeaf_iff.1 hleaf).trans (isLeaf_iff.1 hl).symm) (by rw [hm, hd]; exact BEq.rfl)
  exact hnew.apart (hsame ▸ hdm)

/-! ## Cycles -/

/-- The old and the new children of a node in a lattice. -/
def widened (a : Arena) (root i : Nat) : List Nat := a.childrenWith (a.newEdges root) i

theorem mem_childrenWith {extra : List (Nat × Nat)} :
    c ∈ a.childrenWith extra i ↔ c ∈ a.children i ∨ (i, c) ∈ extra := by
  simp [childrenWith]

theorem mem_widened_iff (h : a.Covering root) :
    c ∈ a.widened root i ↔ c ∈ a.children i ∨ NewParent a root i c := by
  rw [widened, mem_childrenWith, mem_newEdges_iff h]

/-- Whether an edge of the tree closes a cycle: the child covers its parent, and the parent gets a new
parent that it covers. -/
def Closing (a : Arena) (root i c : Nat) : Prop :=
  (a.template c).covers (a.template i) = true ∧
    ∃ s, NewParent a root s i ∧ (a.template i).covers (a.template s) = true

/-- Old and new edges lead from nodes of the tree to nodes that these cover. -/
theorem of_reaches_widened (h : a.Covering root) (hx : a.Reaches root x)
    (hxy : Walk.Reaches (a.widened root) x y) :
    a.Reaches root y ∧ (a.template x).covers (a.template y) = true := by
  apply hxy.induct (P := fun y => a.Reaches root y ∧ (a.template x).covers (a.template y) = true)
  · exact ⟨hx, Template.covers_refl _⟩
  · rintro y ⟨hy, hcovers⟩ z hz
    rcases (mem_widened_iff h).1 hz with hz | hnew
    · exact ⟨hy.trans (reaches_of_mem_children hz), Template.covers_trans hcovers (h y hy z hz)⟩
    · exact ⟨hnew.child, Template.covers_trans hcovers hnew.covers⟩

/-- A way over old and new edges has a last new one, unless all are old. -/
theorem exists_last_newParent (h : a.Covering root) (hxy : Walk.Reaches (a.widened root) x y) :
    a.Reaches x y ∨
      ∃ s d, Walk.Reaches (a.widened root) x s ∧ NewParent a root s d ∧ a.Reaches d y := by
  induction hxy with
  | refl => exact .inl (.refl _ _)
  | tail hxy hz ih =>
    rcases (mem_widened_iff h).1 hz with hz | hnew
    · rcases ih with hold | ⟨s, d, hxs, hnew, hdy⟩
      · exact .inl (hold.trans (reaches_of_mem_children hz))
      · exact .inr ⟨s, d, hxs, hnew, hdy.trans (reaches_of_mem_children hz)⟩
    · exact .inr ⟨_, _, hxy, hnew, .refl _ _⟩

/-- **An edge of the tree lies on a cycle exactly if it closes one.** -/
theorem reaches_widened_iff (h : a.Covering root) (hi : a.Reaches root i) (hc : c ∈ a.children i) :
    Walk.Reaches (a.widened root) c i ↔ Closing a root i c := by
  have hrootc : a.Reaches root c := hi.trans (reaches_of_mem_children hc)
  constructor
  · intro hci
    -- the source of the last new edge covers all nodes on the cycle, and is not below the parent
    rcases exists_last_newParent h hci with hold | ⟨s, d, hcs, hnew, hdi⟩
    · exact absurd (children_lt hc) (Nat.not_lt.2 hold.le)
    · have hcovers := Template.covers_trans (h i hi c hc) (of_reaches_widened h hrootc hcs).2
      have hid := Template.covers_trans hcovers hnew.covers
      have hdcovers := (h.of_reaches hnew.child).covers hdi
      refine ⟨(of_reaches_widened h hrootc hci).2, s, ⟨hnew.parent, hi,
        Template.covers_trans hnew.covers hdcovers, fun k hk => ?_, fun his => ?_⟩, hcovers⟩
      · rw [← Bool.not_eq_true]
        intro hki
        exact Bool.noConfusion ((hnew.specific k hk).symm.trans (Template.covers_trans hki hid))
      · exact hnew.apart (hdi.trans his)
  · rintro ⟨hci, s, hnew, his⟩
    -- from the child down to a most specific node, to the new parent of its parent, and back
    obtain ⟨m, hcm, hm, hspecific⟩ := exists_coveringChildren_eq_nil hci
    have hsi : (a.template s).covers (a.template i) = true := hnew.covers
    have hsm : NewParent a root m s := by
      refine ⟨hrootc.trans hcm, hnew.parent, Template.covers_trans hm his, fun k hk => ?_, fun hsm => ?_⟩
      · rw [← Bool.not_eq_true]
        intro hks
        exact Bool.noConfusion ((hspecific k hk).symm.trans (Template.covers_trans hks hsi))
      · rcases reaches_iff_eq_or.1 hsm with rfl | ⟨k, hk, hkm⟩
        · exact hnew.apart ((reaches_of_mem_children hc).trans hcm)
        · have hks := ((h.of_reaches hnew.parent).of_reaches (reaches_of_mem_children hk)).covers hkm
          exact Bool.noConfusion ((hnew.specific k hk).symm.trans (Template.covers_trans hks hm))
    have hold : Walk.Reaches (a.widened root) c m :=
      hcm.induct (P := Walk.Reaches (a.widened root) c) (.refl _ _) fun x hx y hy =>
        hx.trans (reaches_of_mem ((mem_widened_iff h).2 (.inl hy)))
    exact (hold.trans (reaches_of_mem ((mem_widened_iff h).2 (.inr hsm)))).trans
      (reaches_of_mem ((mem_widened_iff h).2 (.inr hnew)))

end GrammarInduction.Arena
