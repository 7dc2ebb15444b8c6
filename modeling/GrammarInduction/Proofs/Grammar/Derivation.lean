import GrammarInduction.Template
import Mathlib.Logic.Relation

/-!
# Derivations

Productions are given as a function from slots to templates. A rewriting step replaces one
occurrence of a slot by one of its productions (`Rewrites`), and a derivation is any number of steps
(`Derives`). `Yields` derives the literal texts of a sequence of tokens all at once.

* `derives_iff_yields`: a sequence of literals is derived exactly if it is yielded.
* `Yields.append`, `yields_append_iff`: yields of a sequence are yields of its parts.
* `Yields.mono`: what each production still yields, whole sequences still yield; `Yields.mono_within`
  says so within some of the slots.
-/

namespace GrammarInduction

variable {f g : Slot → List Template} {x y z x' y' : List Token} {u w : List String} {s : Slot}
  {t : Template}

/-! ## Derivations step by step -/

/-- One occurrence of a slot is replaced by one of its productions. -/
inductive Rewrites (f : Slot → List Template) : List Token → List Token → Prop
  | step (front back : List Token) {s : Slot} {t : Template} (h : t ∈ f s) :
      Rewrites f (front ++ .slot s :: back) (front ++ (t.tokens ++ back))

/-- Any number of slots are replaced, one after the other. -/
def Derives (f : Slot → List Template) : List Token → List Token → Prop :=
  Relation.ReflTransGen (Rewrites f)

theorem Derives.refl (f : Slot → List Template) (x : List Token) : Derives f x x :=
  Relation.ReflTransGen.refl

theorem Derives.trans (h : Derives f x y) (h' : Derives f y z) : Derives f x z :=
  Relation.ReflTransGen.trans h h'

theorem Rewrites.append_left (h : Rewrites f x y) (front : List Token) :
    Rewrites f (front ++ x) (front ++ y) := by
  obtain ⟨pre, post, ht⟩ := h
  simpa using Rewrites.step (front ++ pre) post ht

theorem Rewrites.append_right (h : Rewrites f x y) (back : List Token) :
    Rewrites f (x ++ back) (y ++ back) := by
  obtain ⟨pre, post, ht⟩ := h
  simpa using Rewrites.step pre (post ++ back) ht

theorem Derives.append (h : Derives f x y) (h' : Derives f x' y') :
    Derives f (x ++ x') (y ++ y') := by
  have hleft : Derives f (x ++ x') (y ++ x') := h.lift (· ++ x') fun _ _ hr => hr.append_right x'
  have hright : Derives f (y ++ x') (y ++ y') := h'.lift (y ++ ·) fun _ _ hr => hr.append_left y
  exact hleft.trans hright

theorem derives_of_mem (h : t ∈ f s) : Derives f [.slot s] t.tokens :=
  .single (by simpa using Rewrites.step [] [] h)

/-- Derivations are carried over to other productions by a map of tokens that carries each
production over. -/
theorem Derives.map {ρ : Token → Token} (h : Derives f x y)
    (hρ : ∀ s, ∀ t ∈ f s, Derives g [ρ (.slot s)] (t.tokens.map ρ)) :
    Derives g (x.map ρ) (y.map ρ) := by
  induction h with
  | refl => exact .refl g _
  | tail _ hr ih =>
    obtain ⟨front, back, ht⟩ := hr
    apply ih.trans
    rw [List.map_append, List.map_append, List.map_cons, List.map_append]
    exact (Derives.refl g _).append (Derives.append (x := [_]) (hρ _ _ ht) (.refl g _))

/-! ## Derivations of literals -/

/-- The literals that tokens stand for, each slot through one of its productions. -/
inductive Yields (f : Slot → List Template) : List Token → List String → Prop
  | nil : Yields f [] []
  | literal (text : String) {x : List Token} {w : List String} :
      Yields f x w → Yields f (.literal text :: x) (text :: w)
  | slot {s : Slot} {t : Template} {x : List Token} {u w : List String} (h : t ∈ f s) :
      Yields f t.tokens u → Yields f x w → Yields f (.slot s :: x) (u ++ w)

theorem yields_nil_iff : Yields f [] w ↔ w = [] := by
  refine ⟨fun h => ?_, ?_⟩
  · cases h
    rfl
  · rintro rfl
    exact .nil

theorem yields_literal_cons_iff {text : String} :
    Yields f (.literal text :: x) w ↔ ∃ v, w = text :: v ∧ Yields f x v := by
  refine ⟨fun h => ?_, ?_⟩
  · cases h with
    | literal _ h => exact ⟨_, rfl, h⟩
  · rintro ⟨v, rfl, h⟩
    exact .literal text h

theorem yields_slot_cons_iff :
    Yields f (.slot s :: x) w ↔
      ∃ t ∈ f s, ∃ u v, w = u ++ v ∧ Yields f t.tokens u ∧ Yields f x v := by
  refine ⟨fun h => ?_, ?_⟩
  · cases h with
    | slot ht hu hw => exact ⟨_, ht, _, _, rfl, hu, hw⟩
  · rintro ⟨t, ht, u, v, rfl, hu, hv⟩
    exact .slot ht hu hv

/-- What a slot yields is what its productions yield. -/
theorem yields_slot_iff : Yields f [.slot s] w ↔ ∃ t ∈ f s, Yields f t.tokens w := by
  rw [yields_slot_cons_iff]
  refine exists_congr fun t => and_congr_right fun _ => ?_
  simp [yields_nil_iff]

theorem Yields.append (h : Yields f x u) (h' : Yields f y w) : Yields f (x ++ y) (u ++ w) := by
  induction h with
  | nil => exact h'
  | literal text _ ih => exact .literal text ih
  | slot ht hu _ _ ihx =>
    rw [List.append_assoc]
    exact .slot ht hu ihx

theorem yields_append_iff :
    Yields f (x ++ y) w ↔ ∃ u v, w = u ++ v ∧ Yields f x u ∧ Yields f y v := by
  refine ⟨fun h => ?_, ?_⟩
  · induction x generalizing w with
    | nil => exact ⟨[], w, rfl, .nil, h⟩
    | cons k x ih =>
      cases k with
      | literal text =>
        obtain ⟨v, rfl, hv⟩ := yields_literal_cons_iff.1 h
        obtain ⟨u, v, rfl, hu, hv⟩ := ih hv
        exact ⟨text :: u, v, rfl, .literal text hu, hv⟩
      | slot s =>
        obtain ⟨t, ht, u, v, rfl, hu, hv⟩ := yields_slot_cons_iff.1 h
        obtain ⟨u', v, rfl, hu', hv⟩ := ih hv
        exact ⟨u ++ u', v, by simp, .slot ht hu hu', hv⟩
  · rintro ⟨u, v, rfl, hu, hv⟩
    exact hu.append hv

theorem yields_literals (f : Slot → List Template) (w : List String) :
    Yields f (w.map .literal) w := by
  induction w with
  | nil => exact .nil
  | cons text w ih => exact .literal text ih

theorem Yields.derives (h : Yields f x w) : Derives f x (w.map .literal) := by
  induction h with
  | nil => exact .refl f _
  | literal text _ ih => exact (Derives.refl f [.literal text]).append ih
  | slot ht _ _ ihu ihw =>
    rw [List.map_append]
    exact ((derives_of_mem ht).trans ihu).append ihw

/-- A step back from what yields literals. -/
theorem Yields.of_rewrites (hr : Rewrites f x y) (h : Yields f y w) : Yields f x w := by
  obtain ⟨front, back, ht⟩ := hr
  obtain ⟨u, v, rfl, hu, hv⟩ := yields_append_iff.1 h
  obtain ⟨v, v', rfl, hv, hv'⟩ := yields_append_iff.1 hv
  exact hu.append (.slot ht hv hv')

/-- **Literals are derived exactly if they are yielded.** -/
theorem derives_iff_yields : Derives f x (w.map .literal) ↔ Yields f x w := by
  refine ⟨fun h => ?_, Yields.derives⟩
  induction h using Relation.ReflTransGen.head_induction_on with
  | refl => exact yields_literals f w
  | head hr _ ih => exact ih.of_rewrites hr

/-! ## Comparing productions -/

/-- Let the productions of some slots mention only such slots. If each of these slots yields what
each of its productions yields under both functions, then every sequence of tokens with only such
slots yields what it has yielded. -/
theorem Yields.mono_within {P : Slot → Prop} (h : Yields f x w) (hx : ∀ s, .slot s ∈ x → P s)
    (hP : ∀ s, P s → ∀ t ∈ f s, ∀ k, .slot k ∈ t.tokens → P k)
    (hfg : ∀ s, P s → ∀ t ∈ f s, ∀ u, Yields f t.tokens u → Yields g t.tokens u →
      Yields g [.slot s] u) : Yields g x w := by
  induction h with
  | nil => exact .nil
  | literal text _ ih => exact .literal text (ih fun s hs => hx s (.tail _ hs))
  | slot ht hu _ ihu ihw =>
    have hs := hx _ List.mem_cons_self
    exact (hfg _ hs _ ht _ hu (ihu (hP _ hs _ ht))).append (ihw fun s hs => hx s (.tail _ hs))

/-- If every slot yields what each of its productions yields under both functions, then every
sequence of tokens yields what it has yielded. -/
theorem Yields.mono (h : Yields f x w)
    (hfg : ∀ s, ∀ t ∈ f s, ∀ u, Yields f t.tokens u → Yields g t.tokens u →
      Yields g [.slot s] u) : Yields g x w :=
  h.mono_within (P := fun _ => True) (fun _ _ => trivial) (fun _ _ _ _ _ _ => trivial)
    fun s _ => hfg s

end GrammarInduction
