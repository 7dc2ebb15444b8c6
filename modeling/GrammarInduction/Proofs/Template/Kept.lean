import GrammarInduction.Proofs.Template.Merging

/-!
# What merges keep

The tokens that an alignment keeps (`kept`) are shared by both templates, in their order. Along an
alignment a merge puts them and fresh anonymous slots, and it leaves out nothing but anonymous slots. So
its lasting tokens, the literals and the named slots, are those among the kept ones
(`lastingTokens_mergedTokens`).

With what is known of any merge, that it covers both templates and puts no two anonymous slots side by
side, this says what the candidates for merging two templates are (`distinctMerges_generalise`).
-/

namespace GrammarInduction.Template

variable {minimal : Bool} {ops : List EditOp} {xs ys : List Token} {last : Option Token}

/-! ## Tokens that are kept -/

/-- The tokens that an alignment keeps. -/
def kept : List EditOp → List Token → List Token
  | [], _ => []
  | op :: ops, tokens => (if op = .keep then tokens.take 1 else []) ++ kept ops (afterOp op tokens)

/-- **What is kept is common to both sequences.** -/
theorem kept_sublist (h : Alignment.Valid xs ys ops) :
    (kept ops xs).Sublist xs ∧ (kept ops xs).Sublist ys := by
  induction h with
  | nil => exact ⟨.slnil, .slnil⟩
  | keep x _ ih => exact ⟨ih.1.cons_cons x, ih.2.cons_cons x⟩
  | @substitute x y _ _ _ _ _ ih => exact ⟨ih.1.cons x, ih.2.cons y⟩
  | delete x _ ih => exact ⟨ih.1.cons x, ih.2⟩
  | insert y _ ih => exact ⟨ih.1, ih.2.cons y⟩

/-! ## Lasting tokens -/

/-- The tokens that are no anonymous slots. -/
def lastingTokens (tokens : List Token) : List Token := tokens.filter fun t => !isAnonymous t

/-- The literals and the named slots of a template. -/
def lasting (t : Template) : List Token := lastingTokens t.tokens

theorem lastingTokens_append (front back : List Token) :
    lastingTokens (front ++ back) = lastingTokens front ++ lastingTokens back :=
  List.filter_append ..

theorem isAnonymous_erase (t : Token) : isAnonymous t.erase = isAnonymous t := by
  rcases t with text | (id | name) <;> rfl

/-- Nothing but anonymous slots is left out. -/
theorem isAnonymous_of_absorbed {op : EditOp} {id : Nat}
    (h : absorbed minimal last op (tokenOf op xs id) = true) :
    isAnonymous (tokenOf op xs id) = true := by
  cases op with
  | keep =>
    simp only [absorbed, Bool.and_eq_true] at h
    exact h.1.2
  | substitute => rfl
  | delete => rfl
  | insert => rfl

/-- The token that an operation puts lasts only if it is kept. -/
theorem lastingTokens_tokenOf (op : EditOp) (xs : List Token) (id : Nat) :
    lastingTokens [tokenOf op xs id] = lastingTokens (if op = .keep then xs.take 1 else []) := by
  cases op with
  | keep => cases xs <;> rfl
  | substitute => rfl
  | delete => rfl
  | insert => rfl

/-- **The lasting tokens of a merge are those that the alignment keeps.** -/
theorem lastingTokens_mergedTokens (ops : List EditOp) (xs : List Token) (last : Option Token) (id : Nat) :
    lastingTokens (mergedTokens minimal ops xs last id) = lastingTokens (kept ops xs) := by
  induction ops generalizing xs last id with
  | nil => rfl
  | cons op ops ih =>
    rw [kept, lastingTokens_append, ← lastingTokens_tokenOf op xs id]
    by_cases habs : absorbed minimal last op (tokenOf op xs id) = true
    · rw [mergedTokens_of_absorbed habs, ih]
      simp [lastingTokens, isAnonymous_of_absorbed habs]
    · rw [mergedTokens_of_not_absorbed habs, ← ih (afterOp op xs) (some (tokenOf op xs id)) (id + 1)]
      exact lastingTokens_append [_] _

/-! ## Candidates for a merge of two templates -/

variable {policy : MergePolicy} {first second merged : Template} {supply : Nat}

theorem admitted_iff : admitted policy first second merged = true ↔
    (policy.allowLonger = true ∨ merged.length ≤ first.length ∨ merged.length ≤ second.length) ∧
      ∀ n ∈ policy.minLiterals, n ≤ merged.literals.length := by
  cases h : policy.minLiterals <;> simp [admitted, or_assoc, h]

theorem admitted_of_mem_merges (h : merged ∈ (merges policy first second supply).1) :
    admitted policy first second merged = true :=
  (List.mem_filter.1 h).2

/-- An alignment that is tried gives a merge, if what merging puts along it is admitted. -/
theorem exists_mem_merges {ops : List EditOp}
    (hops : ops ∈ Alignment.alignments policy.maxAlignments first.tokens second.tokens)
    (hadmitted : ∀ id, admitted policy first second (mergeAlong policy ops first id) = true)
    (supply : Nat) :
    ∃ id, mergeAlong policy ops first id ∈ (merges policy first second supply).1 := by
  obtain ⟨k, hk⟩ := List.mem_iff_getElem?.1 hops
  exact ⟨_, List.mem_filter.2
    ⟨List.mem_map.2 ⟨(ops, k), List.mem_zipIdx_iff_getElem?.2 hk, rfl⟩, hadmitted _⟩⟩

theorem lasting_sublist_of_mem_merges (h : merged ∈ (merges policy first second supply).1) :
    merged.lasting.Sublist first.lasting ∧ merged.lasting.Sublist second.lasting := by
  obtain ⟨ops, id, hvalid, rfl⟩ := exists_of_mem_merges h
  obtain ⟨hx, hy⟩ := kept_sublist hvalid
  simp only [lasting, mergeAlong, lastingTokens_mergedTokens]
  exact ⟨hx.filter _, hy.filter _⟩

theorem separate_of_mem_merges (hmin : policy.minimalVariables = true)
    (h : merged ∈ (merges policy first second supply).1) : Separate merged.tokens := by
  obtain ⟨ops, id, -, rfl⟩ := exists_of_mem_merges h
  rw [mergeAlong, hmin]
  exact separate_mergedTokens ops first.tokens none id

theorem length_le_of_mem_merges (hlonger : policy.allowLonger = false)
    (h : merged ∈ (merges policy first second supply).1) :
    merged.length ≤ max first.length second.length := by
  obtain ⟨hshort, -⟩ := admitted_iff.1 (admitted_of_mem_merges h)
  rcases hshort with hlong | hshort
  · exact absurd (hlonger.symm.trans hlong) Bool.false_ne_true
  · omega

/-- **Every candidate generalises both templates.** It covers both, its literals and named slots are a
common subsequence of those of the two, no two anonymous slots stand side by side in it under
`minimalVariables`, and unless longer ones are admitted it is no longer than the longer one of the two. -/
theorem distinctMerges_generalise (h : merged ∈ (distinctMerges policy first second supply).1) :
    merged.covers first = true ∧ merged.covers second = true ∧
    merged.lasting.Sublist first.lasting ∧ merged.lasting.Sublist second.lasting ∧
    (policy.minimalVariables = true → Separate merged.tokens) ∧
    (policy.allowLonger = false → merged.length ≤ max first.length second.length) := by
  have hmerged := mem_merges_of_mem_distinctMerges h
  obtain ⟨hfirst, hsecond⟩ := covers_of_mem_merges hmerged
  obtain ⟨hlasting, hlasting'⟩ := lasting_sublist_of_mem_merges hmerged
  exact ⟨hfirst, hsecond, hlasting, hlasting', fun hmin => separate_of_mem_merges hmin hmerged,
    fun hlonger => length_le_of_mem_merges hlonger hmerged⟩

/-- A template with a named and an anonymous slot. -/
def withAnonymous : Template :=
  ⟨[.literal "a", .slot (.named "x"), .literal "b", .slot (.anonymous 0), .literal "c"]⟩

/-- One with an anonymous slot in the place of the first literal. -/
def withLeadingSlot : Template :=
  ⟨[.slot (.anonymous 1), .slot (.named "x"), .literal "d", .literal "c", .literal "e"]⟩

/-- What the two have in common. -/
def withBoth : Template :=
  ⟨[.slot (.anonymous 12), .slot (.named "x"), .slot (.anonymous 14), .literal "c", .slot (.anonymous 17)]⟩

theorem distinctMerges_generalise_withBoth :
    withBoth ∈ (distinctMerges {} withAnonymous withLeadingSlot 2).1 ∧
    withBoth.covers withAnonymous = true ∧ withBoth.covers withLeadingSlot = true ∧
    withBoth.lasting.Sublist withAnonymous.lasting ∧
    withBoth.lasting.Sublist withLeadingSlot.lasting ∧ Separate withBoth.tokens ∧
    withBoth.length ≤ max withAnonymous.length withLeadingSlot.length := by
  have hsecond : (distinctMerges {} withAnonymous withLeadingSlot 2).1[1]? = some withBoth := by
    decide +kernel
  have hmem := List.mem_of_getElem? hsecond
  obtain ⟨hfirst, hsecond, hlasting, hlasting', hseparate, hlength⟩ := distinctMerges_generalise hmem
  exact ⟨hmem, hfirst, hsecond, hlasting, hlasting', hseparate rfl, hlength rfl⟩

end GrammarInduction.Template
