import GrammarInduction.Proofs.Walk.Reach
import Mathlib.Data.List.Forall2

/-!
# What sweeps compute

A sweep goes through nodes in an order in which neighbours come first (`Ordered`). So each step is
given a value for every neighbour, and a relation between nodes and values that each step
establishes for its node and keeps for the others holds of all values in the end (`sweep_spec`).
-/

namespace GrammarInduction.Walk

universe u v w

variable {α : Type u} {σ : Type v} {β : Type w} [BEq α] {next : α → List α}

/-! ## Lists of values -/

section Lists

variable {R : α → β → Prop} {as : List α} {bs : List β}

omit [BEq α] in
theorem exists_of_mem_left (h : List.Forall₂ R as bs) {a : α} (ha : a ∈ as) : ∃ b ∈ bs, R a b := by
  induction h with
  | nil => simp at ha
  | @cons c b as bs hcb _ ih =>
    rcases List.mem_cons.1 ha with rfl | ha
    · exact ⟨b, List.mem_cons_self, hcb⟩
    · obtain ⟨d, hd, had⟩ := ih ha
      exact ⟨d, .tail _ hd, had⟩

omit [BEq α] in
theorem exists_of_mem_right (h : List.Forall₂ R as bs) {b : β} (hb : b ∈ bs) : ∃ a ∈ as, R a b := by
  induction h with
  | nil => simp at hb
  | @cons a c as bs hac _ ih =>
    rcases List.mem_cons.1 hb with rfl | hb
    · exact ⟨a, List.mem_cons_self, hac⟩
    · obtain ⟨d, hd, hdb⟩ := ih hb
      exact ⟨d, .tail _ hd, hdb⟩

omit [BEq α] in
theorem forall_mem_right {Q : β → Prop} (h : List.Forall₂ R as bs) (hvalues : ∀ a b, R a b → Q b) :
    ∀ b ∈ bs, Q b := by
  intro b hb
  obtain ⟨a, -, hab⟩ := exists_of_mem_right h hb
  exact hvalues a b hab

omit [BEq α] in
/-- What holds between any two members of a list holds of their values in another way. -/
theorem pairwise_of_forall₂ {S : α → α → Prop} {T : β → β → Prop} (h : List.Forall₂ R as bs)
    (hvalues : ∀ a c b d, R a b → R c d → S a c → T b d) (has : as.Pairwise S) : bs.Pairwise T := by
  induction h with
  | nil => exact .nil
  | cons hab hrest ih =>
    obtain ⟨hfirst, has⟩ := List.pairwise_cons.1 has
    refine List.pairwise_cons.2 ⟨fun d hd => ?_, ih has⟩
    obtain ⟨c, hc, hcd⟩ := exists_of_mem_right hrest hd
    exact hvalues _ _ _ _ hab hcd (hfirst c hc)

end Lists

omit [BEq α] in
/-- **The rule for collecting.** A step that establishes `R` for its member and keeps it for all others
establishes it for all members of a list and what is collected for them. -/
theorem foldl_collect {step : σ → α → σ × β} {I : σ → Prop} {R : σ → α → β → Prop} {as done : List α}
    {bs : List β} {s : σ}
    (hstep : ∀ s, I s → ∀ a ∈ as, I (step s a).1 ∧ R (step s a).1 a (step s a).2 ∧
      ∀ c d, R s c d → R (step s a).1 c d)
    (hs : I s) (hdone : List.Forall₂ (R s) done bs) {r : σ × List β}
    (hr : as.foldl (fun (s, bs) a => let (s, b) := step s a; (s, bs ++ [b])) (s, bs) = r) :
    I r.1 ∧ List.Forall₂ (R r.1) (done ++ as) r.2 := by
  induction as generalizing s done bs with
  | nil =>
    subst hr
    exact ⟨hs, by simpa using hdone⟩
  | cons a as ih =>
    obtain ⟨hI, hR, hkeep⟩ := hstep s hs a List.mem_cons_self
    have hdone' : List.Forall₂ (R (step s a).1) (done ++ [a]) (bs ++ [(step s a).2]) :=
      List.rel_append (hdone.imp hkeep) (.cons hR .nil)
    have hrest := ih (fun s hs c hc => hstep s hs c (.tail _ hc)) hI hdone' hr
    simpa using hrest

/-- The values of nodes that all have one. -/
theorem forall₂_filterMap_lookup {P : α → β → Prop} {known : List (α × β)} {as : List α}
    (h : ∀ a ∈ as, ∃ b, known.lookup a = some b ∧ P a b) :
    List.Forall₂ P as (as.filterMap fun a => known.lookup a) := by
  induction as with
  | nil => exact .nil
  | cons a as ih =>
    obtain ⟨b, hb, hp⟩ := h a List.mem_cons_self
    simp only [List.filterMap_cons, hb]
    exact .cons hp (ih fun c hc => h c (.tail _ hc))

/-! ## The rule -/

variable [LawfulBEq α]

/-- **The rule for sweeps.** A step that finds `P` between the neighbours and their values
establishes it for the node and its value, and keeps it for all others; then it holds of every node
of the list in the end. -/
theorem sweep_spec (step : σ → α → List β → σ × β) {I : σ → Prop} {P : σ → α → β → Prop}
    {as : List α}
    (hstep : ∀ s, I s → ∀ a ∈ as, ∀ bs, List.Forall₂ (P s) (next a) bs →
      I (step s a bs).1 ∧ P (step s a bs).1 a (step s a bs).2 ∧
        ∀ c d, P s c d → P (step s a bs).1 c d)
    {s : σ} (hs : I s) (known : List (α × β))
    (hord : Ordered next (known.map Prod.fst) as)
    (hknown : ∀ a ∈ known.map Prod.fst, ∃ b, known.lookup a = some b ∧ P s a b) :
    I (sweep next step as s known).1 ∧
      ∀ a, a ∈ as ∨ a ∈ known.map Prod.fst →
        ∃ b, (sweep next step as s known).2.lookup a = some b ∧
          P (sweep next step as s known).1 a b := by
  induction as generalizing s known with
  | nil => exact ⟨hs, fun a ha => hknown a (by simpa using ha)⟩
  | cons a as ih =>
    obtain ⟨hnext, hord⟩ := hord
    have hbs := forall₂_filterMap_lookup fun c hc => hknown c (hnext c hc)
    obtain ⟨hI, hP, hkeep⟩ := hstep s hs a List.mem_cons_self _ hbs
    have hall : ∀ c ∈ a :: known.map Prod.fst, ∃ d,
        ((a, (step s a ((next a).filterMap fun c => known.lookup c)).2) :: known).lookup c =
            some d ∧
          P (step s a ((next a).filterMap fun c => known.lookup c)).1 c d := by
      intro c hc
      by_cases hca : c = a
      · subst hca
        exact ⟨_, List.lookup_cons_self, hP⟩
      · obtain ⟨d, hd, hp⟩ := hknown c ((List.mem_cons.1 hc).resolve_left hca)
        have hne : (c == a) = false := by simpa using hca
        exact ⟨d, by rw [List.lookup_cons, hne]; exact hd, hkeep c d hp⟩
    have hrest := ih (fun s hs c hc => hstep s hs c (.tail _ hc)) hI
      ((a, (step s a ((next a).filterMap fun c => known.lookup c)).2) :: known) hord hall
    refine ⟨hrest.1, fun c hc => hrest.2 c ?_⟩
    simpa [or_assoc, or_left_comm] using hc

end GrammarInduction.Walk
