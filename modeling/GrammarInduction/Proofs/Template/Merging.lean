import GrammarInduction.Learner.Candidate
import GrammarInduction.Proofs.Alignment.Optimality
import GrammarInduction.Proofs.Template.Generality

/-!
# Merges generalise

Whatever alignment a merge follows, it covers both templates.

* `covers_mergedTokens`: the tokens put along a valid alignment cover both sequences, if the slot
  put last may take in what is left out.
* `separate_mergedTokens`: under `minimalVariables` no two anonymous slots are put side by side, so
  that merging templates without named slots puts no two slots side by side.
* `covers_of_mem_possibleMerges`: every merge that a learner takes into account covers both
  templates; it is plain if the first one is (`isPlain_of_mem_possibleMerges`).
* `hasSlots_of_covers`: what covers two different templates has a slot.
-/

namespace GrammarInduction

open Cover

namespace Template

/-! ## Tokens along an alignment -/

/-- The token put last, if it is a slot. -/
def lastSlot : Option Token → List Token
  | some (.slot s) => [.slot s]
  | _ => []

variable {minimal : Bool} {ops : List EditOp} {xs ys : List Token} {last : Option Token}

theorem mergedTokens_of_absorbed {op : EditOp} {id : Nat}
    (h : absorbed minimal last op (tokenOf op xs id) = true) :
    mergedTokens minimal (op :: ops) xs last id =
      mergedTokens minimal ops (afterOp op xs) last (id + 1) := by
  simp [mergedTokens, h]

theorem mergedTokens_of_not_absorbed {op : EditOp} {id : Nat}
    (h : ¬ absorbed minimal last op (tokenOf op xs id) = true) :
    mergedTokens minimal (op :: ops) xs last id =
      tokenOf op xs id ::
        mergedTokens minimal ops (afterOp op xs) (some (tokenOf op xs id)) (id + 1) := by
  simp [mergedTokens, h]

theorem isSlot_of_isAnonymous {t : Token} (h : isAnonymous t = true) : t.isSlot = true := by
  cases t with
  | literal text => cases h
  | slot s => rfl

/-- Only after a slot is anything left out. -/
theorem lastSlot_of_absorbed {op : EditOp} {token : Token}
    (h : absorbed minimal last op token = true) : ∃ s, lastSlot last = [.slot s] := by
  have hlast : last.any Token.isSlot = true ∨ last.any isAnonymous = true := by
    cases op <;> simp_all [absorbed]
  rcases last with _ | ⟨text | s⟩
  · simp at hlast
  · simp [Token.isSlot, isAnonymous] at hlast
  · exact ⟨s, rfl⟩

/-- What is left out goes into the slot put last. -/
theorem covers_take_of_absorbed {op : EditOp} {token : Token} {main other : List Token}
    (h : absorbed minimal last op token = true) (t : Token)
    (hrest : Covers (lastSlot last ++ main) other) :
    Covers (lastSlot last ++ main) (t :: other) := by
  obtain ⟨s, hs⟩ := lastSlot_of_absorbed h
  rw [hs] at hrest ⊢
  exact .take s t hrest

/-- A slot put last may stay empty. -/
theorem covers_lastSlot_append {main other : List Token} (last : Option Token)
    (h : Covers main other) : Covers (lastSlot last ++ main) other := by
  rcases last with _ | ⟨text | s⟩
  · exact h
  · exact h
  · exact .skip s h

/-- After a shared token is put, the rest may follow it in both sequences. -/
theorem covers_cons_of_lastSlot {token : Token} {main other : List Token}
    (h : Covers (lastSlot (some token) ++ main) other) :
    Covers (token :: main) (token :: other) := by
  cases token with
  | literal text => exact .literal text h
  | slot s => exact .take s _ h

theorem covers_mergedTokens (h : Alignment.Valid xs ys ops) (last : Option Token) (id : Nat) :
    Covers (lastSlot last ++ mergedTokens minimal ops xs last id) xs ∧
      Covers (lastSlot last ++ mergedTokens minimal ops xs last id) ys := by
  induction h generalizing last id with
  | nil => exact ⟨covers_lastSlot_append last .nil, covers_lastSlot_append last .nil⟩
  | @keep x xs _ _ _ ih =>
    by_cases habs : absorbed minimal last .keep (tokenOf .keep (x :: xs) id) = true
    · rw [mergedTokens_of_absorbed habs]
      obtain ⟨hx, hy⟩ := ih last (id + 1)
      exact ⟨covers_take_of_absorbed habs x hx, covers_take_of_absorbed habs x hy⟩
    · rw [mergedTokens_of_not_absorbed habs]
      obtain ⟨hx, hy⟩ := ih (some x) (id + 1)
      exact ⟨covers_lastSlot_append last (covers_cons_of_lastSlot hx),
        covers_lastSlot_append last (covers_cons_of_lastSlot hy)⟩
  | @substitute x y xs _ _ _ _ ih =>
    by_cases habs : absorbed minimal last .substitute (tokenOf .substitute (x :: xs) id) = true
    · rw [mergedTokens_of_absorbed habs]
      obtain ⟨hx, hy⟩ := ih last (id + 1)
      exact ⟨covers_take_of_absorbed habs x hx, covers_take_of_absorbed habs y hy⟩
    · rw [mergedTokens_of_not_absorbed habs]
      obtain ⟨hx, hy⟩ := ih (some (.slot (.anonymous id))) (id + 1)
      exact ⟨covers_lastSlot_append last (.take _ x hx), covers_lastSlot_append last (.take _ y hy)⟩
  | @delete x xs _ _ _ ih =>
    by_cases habs : absorbed minimal last .delete (tokenOf .delete (x :: xs) id) = true
    · rw [mergedTokens_of_absorbed habs]
      obtain ⟨hx, hy⟩ := ih last (id + 1)
      exact ⟨covers_take_of_absorbed habs x hx, hy⟩
    · rw [mergedTokens_of_not_absorbed habs]
      obtain ⟨hx, hy⟩ := ih (some (.slot (.anonymous id))) (id + 1)
      exact ⟨covers_lastSlot_append last (.take _ x hx), covers_lastSlot_append last hy⟩
  | @insert y xs _ _ _ ih =>
    by_cases habs : absorbed minimal last .insert (tokenOf .insert xs id) = true
    · rw [mergedTokens_of_absorbed habs]
      obtain ⟨hx, hy⟩ := ih last (id + 1)
      exact ⟨hx, covers_take_of_absorbed habs y hy⟩
    · rw [mergedTokens_of_not_absorbed habs]
      obtain ⟨hx, hy⟩ := ih (some (.slot (.anonymous id))) (id + 1)
      exact ⟨covers_lastSlot_append last hx, covers_lastSlot_append last (.take _ y hy)⟩

/-! ## Plain merges -/

/-- No two anonymous slots stand side by side. -/
def Separate (tokens : List Token) : Prop :=
  tokens.IsChain fun s t => isAnonymous s = false ∨ isAnonymous t = false

/-- Of two anonymous slots side by side the second would have been absorbed. -/
theorem separate_of_not_absorbed {op : EditOp} {last token : Token}
    (h : ¬ absorbed true (some last) op token = true) :
    isAnonymous last = false ∨ isAnonymous token = false := by
  by_contra hboth
  simp only [not_or, Bool.not_eq_false] at hboth
  have hslot : last.isSlot = true := isSlot_of_isAnonymous hboth.1
  apply h
  cases op <;> simp [absorbed, hboth.1, hboth.2, hslot]

theorem separate_mergedTokens (ops : List EditOp) (xs : List Token) (last : Option Token) (id : Nat) :
    Separate (last.toList ++ mergedTokens true ops xs last id) := by
  induction ops generalizing xs last id with
  | nil => cases last <;> simp [mergedTokens, Separate]
  | cons op ops ih =>
    by_cases habs : absorbed true last op (tokenOf op xs id) = true
    · rw [mergedTokens_of_absorbed habs]
      exact ih _ last (id + 1)
    · rw [mergedTokens_of_not_absorbed habs]
      have hrest := ih (afterOp op xs) (some (tokenOf op xs id)) (id + 1)
      cases last with
      | none => exact hrest
      | some t => exact List.isChain_cons_cons.2 ⟨separate_of_not_absorbed habs, hrest⟩

/-- A token that is no named slot. -/
def Nameless (t : Token) : Prop := t.isSlot = true → isAnonymous t = true

/-- Without named slots, no slots stand side by side if no anonymous ones do. -/
theorem Separate.spaced {tokens : List Token} (h : Separate tokens)
    (hnameless : ∀ t ∈ tokens, Nameless t) : Spaced tokens := by
  have hliteral {t : Token} (ht : t ∈ tokens) (hanon : isAnonymous t = false) : t.isSlot = false := by
    by_contra hslot
    simp [hnameless t ht (by simpa using hslot)] at hanon
  exact List.IsChain.imp_of_mem_imp
    (fun s t hs ht hst => hst.imp (hliteral hs) (hliteral ht)) h

theorem nameless_mergedTokens (minimal : Bool) (ops : List EditOp) (last : Option Token) (id : Nat)
    (hx : ∀ t ∈ xs, Nameless t) :
    ∀ t ∈ mergedTokens minimal ops xs last id, Nameless t := by
  intro t ht
  rcases mem_mergedTokens ht with hin | ⟨id, rfl⟩
  · exact hx t hin
  · exact fun _ => rfl

theorem forall_nameless_iff {t : Template} :
    (∀ k ∈ t.tokens, Nameless k) ↔ ∀ s ∈ t.slots, s.isNamed = false := by
  refine ⟨fun h s hs => ?_, fun h k hk hslot => ?_⟩
  · have hanon := h _ (mem_slots_iff.1 hs) rfl
    cases s with
    | anonymous id => rfl
    | named name => simp [isAnonymous] at hanon
  · rcases k with text | s
    · simp [Token.isSlot] at hslot
    · have hs := h s (mem_slots_iff.2 hk)
      cases s with
      | anonymous id => rfl
      | named name => simp [Slot.isNamed] at hs

/-! ## Merges of templates -/

variable {first second merged : Template} {policy : MergePolicy} {supply : Nat}

/-- The merge along an alignment, with `id` as the first fresh slot. -/
def mergeAlong (policy : MergePolicy) (ops : List EditOp) (first : Template) (id : Nat) : Template :=
  ⟨mergedTokens policy.minimalVariables ops first.tokens none id⟩

/-- A merge follows one of the alignments that are tried. -/
theorem exists_alignment_of_mem_merges (h : merged ∈ (merges policy first second supply).1) :
    ∃ ops id, ops ∈ Alignment.alignments policy.maxAlignments first.tokens second.tokens ∧
      merged = mergeAlong policy ops first id := by
  obtain ⟨⟨ops, k⟩, hops, rfl⟩ := List.mem_map.1 (List.mem_filter.1 h).1
  exact ⟨ops, _, List.fst_mem_of_mem_zipIdx hops, rfl⟩

/-- A merge follows some valid alignment. -/
theorem exists_of_mem_merges (h : merged ∈ (merges policy first second supply).1) :
    ∃ ops id, Alignment.Valid first.tokens second.tokens ops ∧
      merged = mergeAlong policy ops first id := by
  obtain ⟨ops, id, hops, rfl⟩ := exists_alignment_of_mem_merges h
  exact ⟨ops, id, Alignment.valid_of_mem_alignments hops, rfl⟩

theorem mem_merges_of_mem_distinctMerges
    (h : merged ∈ (distinctMerges policy first second supply).1) :
    merged ∈ (merges policy first second supply).1 :=
  OrderedSet.mem_of_mem_ofList h

theorem covers_of_mem_merges (h : merged ∈ (merges policy first second supply).1) :
    merged.covers first = true ∧ merged.covers second = true := by
  obtain ⟨ops, id, hv, rfl⟩ := exists_of_mem_merges h
  obtain ⟨hx, hy⟩ := covers_mergedTokens hv none id
  exact ⟨covers_iff.2 hx, covers_iff.2 hy⟩

theorem isPlain_of_mem_merges (hmin : policy.minimalVariables = true) (hfirst : first.IsPlain)
    (h : merged ∈ (merges policy first second supply).1) : merged.IsPlain := by
  obtain ⟨ops, id, -, rfl⟩ := exists_of_mem_merges h
  rw [mergeAlong, hmin]
  have hnameless := nameless_mergedTokens true ops none id (forall_nameless_iff.2 hfirst.anonymous)
  exact ⟨(separate_mergedTokens ops first.tokens none id).spaced hnameless,
    forall_nameless_iff.1 hnameless⟩

end Template

/-! ## Merges of a learner -/

namespace Learner

open Template

variable {learner : Learner} {first second merged : Template} {supply : Nat}

/-- A merge that is taken into account follows an alignment or is a single slot. -/
theorem mem_possibleMerges_cases (h : merged ∈ (learner.possibleMerges first second supply).1) :
    (∃ allowLonger supply, merged ∈ (merges (learner.policy allowLonger) first second supply).1) ∨
      ∃ id, merged = .ofSlot (.anonymous id) := by
  unfold possibleMerges at h
  split at h
  next hm =>
    exact .inl ⟨false, supply, mem_merges_of_mem_distinctMerges (by rw [hm]; exact h)⟩
  · split at h
    next hm =>
      exact .inl ⟨true, _, mem_merges_of_mem_distinctMerges (by rw [hm]; exact h)⟩
    · exact .inr ⟨_, List.mem_singleton.1 h⟩

theorem covers_ofSlot (s : Slot) (t : Template) : (Template.ofSlot s).covers t = true :=
  by
  rw [covers_iff]
  simpa [Template.ofSlot] using (Covers.skip s .nil).prepend t.tokens

theorem isPlain_ofSlot (id : Nat) : (Template.ofSlot (.anonymous id)).IsPlain := by
  refine ⟨List.isChain_singleton _, ?_⟩
  intro s hs
  obtain rfl : s = .anonymous id := List.mem_singleton.1 hs
  rfl

/-- **Merges taken into account generalise**: they cover both templates. -/
theorem covers_of_mem_possibleMerges (h : merged ∈ (learner.possibleMerges first second supply).1) :
    merged.covers first = true ∧ merged.covers second = true := by
  obtain ⟨_, _, h⟩ | ⟨id, rfl⟩ := mem_possibleMerges_cases h
  · exact covers_of_mem_merges h
  · exact ⟨covers_ofSlot _ _, covers_ofSlot _ _⟩

theorem isPlain_of_mem_possibleMerges (hmin : learner.minimalVariables = true)
    (hfirst : first.IsPlain) (h : merged ∈ (learner.possibleMerges first second supply).1) :
    merged.IsPlain := by
  obtain ⟨_, _, h⟩ | ⟨id, rfl⟩ := mem_possibleMerges_cases h
  · exact isPlain_of_mem_merges hmin hfirst h
  · exact isPlain_ofSlot id

end Learner

/-- What covers two different templates has a slot. -/
theorem Template.hasSlots_of_covers {first second merged : Template}
    (h : merged.covers first = true) (h' : merged.covers second = true)
    (hne : (first == second) = false) : merged.hasSlots = true := by
  by_contra hslots
  rw [Bool.not_eq_true] at hslots
  have hf := eq_of_covers_of_not_hasSlots h hslots
  have hs := eq_of_covers_of_not_hasSlots h' hslots
  simp [hf, hs] at hne

end GrammarInduction
