import GrammarInduction.Proofs.Template.Covering
import GrammarInduction.Proofs.Template.Slots

/-!
# Ranks of plain templates

A template is *plain* if its slots are anonymous and no two of them stand side by side. Among plain
templates covering is antisymmetric up to `==`, and `Template.rank` strictly grows from a template
to each different one that it covers (`rank_lt_of_covers`): literals are gained, or else slots are
lost. So there are no endless or circular chains of different plain templates.
-/

namespace GrammarInduction

/-- Not both tokens are slots. -/
def Token.Apart (s t : Token) : Prop := s.isSlot = false ∨ t.isSlot = false

namespace Cover

/-- No two slots stand side by side. -/
def Spaced (tokens : List Token) : Prop := tokens.IsChain Token.Apart

variable {main other front back : List Token}

theorem spaced_literal_cons_iff {text : String} : Spaced (.literal text :: main) ↔ Spaced main := by
  simp [Spaced, List.isChain_cons, Token.Apart, Token.isSlot]

theorem spaced_slot_cons_iff {s : Slot} :
    Spaced (.slot s :: main) ↔ (∀ t ∈ main.head?, t.isSlot = false) ∧ Spaced main := by
  simp [Spaced, List.isChain_cons, Token.Apart, Token.isSlot]

theorem Spaced.tail {t : Token} (h : Spaced (t :: main)) : Spaced main := List.IsChain.tail h

theorem Spaced.of_append (h : Spaced (front ++ back)) : Spaced back := h.right_of_append

/-- Tokens without literals and without slots side by side are one slot at most. -/
theorem Spaced.front_of_no_literals (h : Spaced (front ++ back))
    (hf : front.filterMap Token.literal? = []) : front = [] ∨ ∃ s, front = [.slot s] := by
  cases front with
  | nil => exact .inl rfl
  | cons t front =>
    cases t with
    | literal text => simp [Token.literal?] at hf
    | slot s =>
      refine .inr ⟨s, ?_⟩
      cases front with
      | nil => rfl
      | cons u front =>
        have hu : u.isSlot = false := (spaced_slot_cons_iff.1 h).1 u rfl
        cases u with
        | literal text => simp [List.filterMap_cons, Token.literal?] at hf
        | slot => simp [Token.isSlot] at hu

theorem Spaced.slots_le (h : Spaced main) :
    (main.filterMap Token.slot?).length ≤ (main.filterMap Token.literal?).length + 1 ∧
      ((∀ t ∈ main.head?, t.isSlot = false) →
        (main.filterMap Token.slot?).length ≤ (main.filterMap Token.literal?).length) := by
  induction main with
  | nil => simp
  | cons t main ih =>
    cases t with
    | literal text =>
      have := (ih h.tail).1
      simp only [List.filterMap_cons, Token.slot?, Token.literal?, List.length_cons]
      exact ⟨by omega, fun _ => this⟩
    | slot s =>
      obtain ⟨hhead, htail⟩ := spaced_slot_cons_iff.1 h
      have := (ih htail).2 hhead
      simp only [List.filterMap_cons, Token.slot?, Token.literal?, List.length_cons]
      exact ⟨by omega, fun hs => by simp [Token.isSlot] at hs⟩

/-- With as many literals, what covers has at least as many slots, and with as many slots it has the
same shape. -/
theorem Covers.slots_le (h : Covers main other) (hm : Spaced main) (ho : Spaced other)
    (hl : (other.filterMap Token.literal?).length ≤ (main.filterMap Token.literal?).length) :
    (other.filterMap Token.slot?).length ≤ (main.filterMap Token.slot?).length ∧
      ((main.filterMap Token.slot?).length ≤ (other.filterMap Token.slot?).length →
        main.map Token.literal? = other.map Token.literal?) := by
  induction main generalizing other with
  | nil =>
    obtain rfl := covers_nil_iff.1 h
    simp
  | cons token main ih =>
    cases token with
    | literal text =>
      obtain ⟨other, rfl, hback⟩ := covers_literal_iff.1 h
      have hrest := ih hback hm.tail ho.tail (by
        simpa [List.filterMap_cons, Token.literal?] using hl)
      simpa [List.filterMap_cons, Token.literal?, Token.slot?] using hrest
    | slot s =>
      obtain ⟨front, back, rfl, hback⟩ := covers_slot_iff.1 h
      simp only [List.filterMap_append, List.length_append, List.filterMap_cons, Token.literal?,
        Token.slot?, List.length_cons, List.map_cons, List.map_append] at hl ⊢
      have hle := hback.literals_sublist.length_le
      have hfront : front.filterMap Token.literal? = [] := List.length_eq_zero_iff.1 (by omega)
      have hrest := ih hback hm.tail ho.of_append (by omega)
      rcases ho.front_of_no_literals hfront with rfl | ⟨s', rfl⟩
      · exact ⟨by simpa using hrest.1.trans (Nat.le_succ _), fun hs => by simp at hs; omega⟩
      · simp only [List.filterMap_cons, Token.slot?, List.filterMap_nil, List.length_singleton]
        exact ⟨by omega, fun hs => by simpa [Token.literal?] using hrest.2 (by omega)⟩

end Cover

open Cover

namespace Template

/-- The slots are anonymous, and no two of them stand side by side. -/
structure IsPlain (t : Template) : Prop where
  spaced : Spaced t.tokens
  anonymous : ∀ s ∈ t.slots, s.isNamed = false

/-- Grows with the literals, and with equally many literals falls with the slots. -/
def rank (t : Template) : Nat :=
  (t.literals.length + 1) * (t.literals.length + 2) - t.slots.length

variable {a b : Template}

theorem isPlain_of_not_hasSlots (h : a.hasSlots = false) : a.IsPlain := by
  have hall := hasSlots_eq_false_iff.1 h
  refine ⟨?_, fun s hs => ?_⟩
  · induction htokens : a.tokens generalizing a with
    | nil => exact .nil
    | cons t ts ih =>
      cases t with
      | literal text =>
        refine spaced_literal_cons_iff.2 (ih (a := ⟨ts⟩) ?_ ?_ rfl) <;>
          simp_all [hasSlots]
      | slot s => simp_all [Token.isSlot]
  · rw [slots_eq_nil h] at hs
    cases hs

theorem IsPlain.slots_le (h : a.IsPlain) : a.slots.length ≤ a.literals.length + 1 :=
  h.spaced.slots_le.1

/-- The form of a plain template can be read off its shape. -/
theorem IsPlain.form_eq (h : a.IsPlain) :
    a.form = a.shape.map fun text => text.elim (.slot (.anonymous 0)) .literal := by
  rw [form, shape, List.map_map]
  apply List.map_congr_left
  intro t ht
  cases t with
  | literal text => rfl
  | slot s =>
    have hs := h.anonymous s (mem_slots_iff.2 ht)
    cases s with
    | anonymous id => rfl
    | named name => simp [Slot.isNamed] at hs

theorem IsPlain.beq_of_shape (ha : a.IsPlain) (hb : b.IsPlain) (h : a.shape = b.shape) :
    (a == b) = true :=
  beq_iff.2 (by rw [ha.form_eq, hb.form_eq, h])

/-! ### Equal templates -/

theorem hasSlots_eq_shape (t : Template) : t.hasSlots = t.shape.any Option.isNone := by
  rw [hasSlots, shape, List.any_map]
  congr 1
  funext k
  cases k <;> rfl

theorem hasSlots_congr (h : (a == b) = true) : a.hasSlots = b.hasSlots := by
  rw [hasSlots_eq_shape, hasSlots_eq_shape, shape_eq_of_beq h]

theorem form_eq_of_not_hasSlots (h : a.hasSlots = false) : a.form = a.tokens := by
  rw [form]
  conv_rhs => rw [← List.map_id a.tokens]
  apply List.map_congr_left
  intro t ht
  have := hasSlots_eq_false_iff.1 h t ht
  cases t with
  | literal text => rfl
  | slot s => simp [Token.isSlot] at this

/-- Without slots there is no difference between the two equalities. -/
theorem eq_of_beq_of_not_hasSlots (h : (a == b) = true) (ha : a.hasSlots = false) : a = b := by
  have hb : b.hasSlots = false := hasSlots_congr h ▸ ha
  have hform := beq_iff.1 h
  rw [form_eq_of_not_hasSlots ha, form_eq_of_not_hasSlots hb] at hform
  obtain ⟨as⟩ := a
  obtain ⟨bs⟩ := b
  exact congrArg Template.mk hform

theorem spaced_iff_form (t : Template) : Spaced t.tokens ↔ Spaced t.form := by
  simp only [Spaced, form, List.isChain_map, Token.Apart, Token.isSlot_erase]
  rfl

theorem anonymous_iff_form (t : Template) :
    (∀ s ∈ t.slots, s.isNamed = false) ↔ ∀ k ∈ t.form, ∀ s ∈ k.slot?, s.isNamed = false := by
  have herase (k : Token) :
      (∀ s ∈ k.erase.slot?, s.isNamed = false) ↔ ∀ s ∈ k.slot?, s.isNamed = false := by
    rcases k with text | (id | name) <;> simp [Token.erase, Token.slot?, Slot.erase, Slot.isNamed]
  rw [form, List.forall_mem_map]
  refine ⟨fun h k hk => (herase k).2 fun s hs => h s (List.mem_filterMap.2 ⟨k, hk, hs⟩), ?_⟩
  intro h s hs
  obtain ⟨k, hk, hks⟩ := List.mem_filterMap.1 hs
  exact (herase k).1 (h k hk) s hks

theorem IsPlain.congr (ha : a.IsPlain) (h : (a == b) = true) : b.IsPlain := by
  have hform := beq_iff.1 h
  refine ⟨(spaced_iff_form b).2 ?_, (anonymous_iff_form b).2 ?_⟩
  · exact hform ▸ (spaced_iff_form a).1 ha.spaced
  · exact hform ▸ (anonymous_iff_form a).1 ha.anonymous

theorem literals_eq_shape (t : Template) : t.literals = t.shape.filterMap id := by
  simp [literals, shape, List.filterMap_map]

theorem length_slots (t : Template) : t.slots.length = t.shape.countP Option.isNone := by
  obtain ⟨ts⟩ := t
  induction ts with
  | nil => rfl
  | cons k ts ih =>
    cases k <;> simp_all [slots, shape, Token.slot?, Token.literal?, List.filterMap_cons]

theorem rank_congr (h : (a == b) = true) : a.rank = b.rank := by
  rw [rank, rank, literals_eq_shape, literals_eq_shape, length_slots, length_slots,
    shape_eq_of_beq h]

/-! ### Ranks along coverings -/

/-- **The rank grows along strict coverings of plain templates.** -/
theorem rank_lt_of_covers (ha : a.IsPlain) (hb : b.IsPlain) (h : a.covers b = true)
    (hne : (a == b) = false) : a.rank < b.rank := by
  have hlits := (literals_sublist_of_covers h).length_le
  have hsa := ha.slots_le
  have hsb := hb.slots_le
  simp only [rank]
  rcases Nat.lt_or_eq_of_le hlits with hlt | heq
  · have hprod : (a.literals.length + 2) * (a.literals.length + 2) ≤
        (b.literals.length + 1) * (b.literals.length + 1) := Nat.mul_le_mul (by omega) (by omega)
    simp only [Nat.add_mul, Nat.mul_add] at hprod ⊢
    omega
  · have hslots := (covers_iff.1 h).slots_le ha.spaced hb.spaced heq.ge
    have hlt : b.slots.length < a.slots.length := by
      apply Nat.lt_of_not_le
      intro hge
      have := ha.beq_of_shape hb (hslots.2 hge)
      simp [hne] at this
    have hpos : a.literals.length + 1 ≤ (a.literals.length + 1) * (a.literals.length + 2) :=
      Nat.le_mul_of_pos_right _ (by omega)
    rw [← heq]
    omega

end Template

end GrammarInduction
