import GrammarInduction.Grammar
import GrammarInduction.Proofs.Arena.Image

/-!
# Naming the slots of trees

A name of a slot is written in capital letters (`mem_slotName`), so that none is the name of the
start of a grammar (`slotName_ne_origin`). Naming gives every anonymous slot of a tree such a name
(`image_nameSlots`).
-/

namespace GrammarInduction

/-- A slot that is not kept for the start of a grammar. -/
abbrev Slot.Unreserved (s : Slot) : Prop := s ≠ origin

/-- A named slot that is not kept for the start of a grammar. -/
abbrev Slot.Ready (s : Slot) : Prop := s.isNamed = true ∧ s.Unreserved

theorem Slot.formal_unreserved : Slot.Formal Slot.Unreserved := by
  rintro s t h hs rfl
  cases s <;> simp_all [Slot.erase, origin]

theorem Slot.formal_ready : Slot.Formal Slot.Ready := by
  rintro s t h ⟨hs, hne⟩
  refine ⟨?_, formal_unreserved s t h hne⟩
  cases s <;> cases t <;> simp_all [Slot.erase, Slot.isNamed]

/-! ## Names -/

theorem mem_base26 {fuel n : Nat} {digits : List Char} {c : Char} (h : c ∈ base26 fuel n digits) :
    c ∈ digits ∨ ∃ d, d < 26 ∧ c = letter d := by
  induction fuel generalizing n digits with
  | zero => exact .inl h
  | succ fuel ih =>
    unfold base26 at h
    split at h
    · exact .inl h
    · rcases ih h with hin | hletter
      · rcases List.mem_cons.1 hin with rfl | hin
        · exact .inr ⟨n % 26, Nat.mod_lt _ (by decide), rfl⟩
        · exact .inl hin
      · exact .inr hletter

/-- The characters of a name are capital letters. -/
theorem mem_slotName {n : Nat} {c : Char} (h : c ∈ (slotName n).toList) :
    ∃ d, d < 26 ∧ c = letter d := by
  unfold slotName at h
  split at h
  · exact ⟨0, by decide, by simpa [letter] using h⟩
  · rw [String.toList_ofList] at h
    exact (mem_base26 h).resolve_left List.not_mem_nil

theorem slotName_ne_origin (n : Nat) : slotName n ≠ "origin" := by
  intro h
  have hmem : 'o' ∈ (slotName n).toList := by
    rw [h]
    decide
  obtain ⟨d, hd, heq⟩ := mem_slotName hmem
  have hall : ∀ d, d < 26 → 'o' ≠ letter d := by decide
  exact hall d hd heq

theorem ready_slotName (n : Nat) : (Slot.named (slotName n)).Ready :=
  ⟨rfl, fun h => slotName_ne_origin n (Slot.named.inj h)⟩

/-! ## Fresh names -/

namespace Arena

variable {slots : List Slot} {names : OrderedMap Slot Slot} {source : NameSource} {s target : Slot}

/-- **Induction on the names that are given**: each goes to an anonymous slot that has none yet, and is
the next one of the source. -/
theorem freshNames_induct {I : OrderedMap Slot Slot → NameSource → Prop} (h : I names source)
    (step : ∀ names source slot, slot.isNamed = false → names.contains slot = false →
      I names source → I (names.insert slot (.named source.next.1)) source.next.2) :
    ∃ last, I (freshNames slots names source) last := by
  induction slots generalizing names source with
  | nil => exact ⟨source, h⟩
  | cons slot slots ih =>
    unfold freshNames
    split
    · exact ih h
    next hskip =>
      obtain ⟨hanonymous, hnew⟩ : slot.isNamed = false ∧ names.contains slot = false := by
        simpa using hskip
      exact ih (step names source slot hanonymous hnew h)

/-- Fresh names are names of the source. -/
theorem freshNames_target (h : (freshNames slots names source).get? s = some target) :
    names.get? s = some target ∨ ∃ n, target = .named (slotName n) := by
  let I (fresh : OrderedMap Slot Slot) : Prop := fresh.get? s = some target →
    names.get? s = some target ∨ ∃ n, target = .named (slotName n)
  have step (fresh : OrderedMap Slot Slot) (source : NameSource) (slot : Slot) (hfresh : I fresh) :
      I (fresh.insert slot (.named source.next.1)) := by
    intro hget
    rw [OrderedMap.get?_insert] at hget
    split at hget
    · exact .inr ⟨_, (Option.some.inj hget).symm⟩
    · exact hfresh hget
  obtain ⟨-, hend⟩ := freshNames_induct (I := fun fresh _ => I fresh) .inl
    fun fresh source slot _ _ hfresh => step fresh source slot hfresh
  exact hend h

theorem contains_freshNames_of_contains (h : names.contains s = true) :
    (freshNames slots names source).contains s = true := by
  obtain ⟨-, hcontains⟩ := freshNames_induct (I := fun fresh _ => fresh.contains s = true) h
    fun fresh source slot _ _ hs => by rw [OrderedMap.contains_insert, hs, Bool.true_or]
  exact hcontains

/-- Every anonymous slot of the list gets a name. -/
theorem contains_freshNames (names : OrderedMap Slot Slot) (source : NameSource) (hs : s ∈ slots)
    (hanonymous : s.isNamed = false) : (freshNames slots names source).contains s = true := by
  induction slots generalizing names source with
  | nil => simp at hs
  | cons slot slots ih =>
    unfold freshNames
    split
    next hskip =>
      rcases List.mem_cons.1 hs with rfl | hs
      · exact contains_freshNames_of_contains (by simpa [hanonymous] using hskip)
      · exact ih _ _ hs
    · rcases List.mem_cons.1 hs with rfl | hs
      · apply contains_freshNames_of_contains
        rw [OrderedMap.contains_insert, BEq.rfl, Bool.or_true]
      · exact ih _ _ hs

/-- **Naming the slots of a tree** gives an image with named slots, none of them kept for the start
of a grammar. -/
theorem image_nameSlots {a : Arena} {root : Nat} (source : NameSource) (hroot : root < a.size)
    (hfree : ∀ l ∈ a.leaves root, (a.template l).hasSlots = false)
    (hslots : ∀ i, a.Reaches root i → (a.template i).Over Slot.Unreserved) :
    (a.nameSlots source root).1.Extends a ∧
      Image Slot.Ready a (a.nameSlots source root).1 root (a.nameSlots source root).2 := by
  apply image_rename Slot.formal_ready hroot hfree
  intro i hi s hs
  generalize ((a.slotsBreadthFirst root).filterMap Slot.name?).foldl NameSource.reserve source =
    source
  have hlisted : s ∈ a.slotsBreadthFirst root := mem_slotsBreadthFirst.2 ⟨i, hi, hs⟩
  cases hget : (freshNames (a.slotsBreadthFirst root) .empty source).get? s with
  | some target =>
    rcases freshNames_target hget with hempty | ⟨n, rfl⟩
    · simp at hempty
    · exact ready_slotName n
  | none =>
    have hnamed : s.isNamed = true := by
      by_contra hanonymous
      have hcontains := contains_freshNames .empty source hlisted (Bool.not_eq_true _ ▸ hanonymous)
      rw [OrderedMap.contains_eq_isSome, hget] at hcontains
      cases hcontains
    exact ⟨hnamed, hslots i hi s hs⟩

end Arena

end GrammarInduction
