import GrammarInduction.Proofs.Grammar.Exhaustive
import GrammarInduction.Proofs.Grammar.Recursion

/-!
# Occurrences filled alike

`generateShared?` gives all occurrences of a slot in a production the same value. What comes out is
generated with the occurrences filled independently, too, and nothing is lost where no production
mentions a slot twice (`shared_generation_refines`).

* `map_fill_assignments?`: there is an assignment for each choice of values, so that filling a
  production cannot fail; `mem_fillAlike_iff` says what comes out.
* `filledFrom_fill`: an assignment is one way to fill the occurrences.
* `exists_assigns`: if no slot is repeated, each way to fill the occurrences is an assignment.
-/

namespace GrammarInduction

open Walk

variable {values : Slot → Template → Prop} {a b : Assignment} {x y : List Token} {p t : Template}
  {s : Slot}

/-! ## Assignments -/

/-- The assignment gives each slot of a template one of the values of the slot. -/
def Assignment.Assigns (a : Assignment) (values : Slot → Template → Prop) (p : Template) : Prop :=
  ∀ s ∈ p.slots, ∃ t, a.get? s = some t ∧ values s t

theorem Template.fill_congr (h : ∀ s ∈ p.slots, a.get? s = b.get? s) : p.fill a = p.fill b := by
  have token : ∀ k ∈ p.tokens, fillToken a k = fillToken b k := by
    rintro (text | s) hk
    · rfl
    · rw [fillToken, fillToken, h s (mem_slots_iff.2 hk)]
  rw [fill, fill, List.flatMap_def, List.flatMap_def, List.map_congr_left token]

/-- Only the slots that occur are filled. -/
theorem FilledFrom.within (h : FilledFrom values x y) :
    FilledFrom (fun s t => .slot s ∈ x ∧ values s t) x y := by
  induction h with
  | nil => exact .nil
  | literal text _ ih => exact .literal text (ih.mono fun _ _ h => ⟨.tail _ h.1, h.2⟩)
  | slot ht _ ih =>
    exact .slot ⟨List.mem_cons_self, ht⟩ (ih.mono fun _ _ h => ⟨.tail _ h.1, h.2⟩)

/-- An assignment fills each occurrence of a slot. -/
theorem filledFrom_fill (h : a.Assigns values p) :
    FilledFrom values p.tokens (p.fill a).tokens := by
  obtain ⟨tokens⟩ := p
  induction tokens with
  | nil => exact .nil
  | cons k tokens ih =>
    cases k with
    | literal text => exact .literal text (ih h)
    | slot s =>
      obtain ⟨t, hget, ht⟩ := h s List.mem_cons_self
      have hrest := ih fun k hk => h k (.tail _ hk)
      simp only [Template.fill, List.flatMap_cons, Template.fillToken, hget] at hrest ⊢
      exact .slot ht hrest

/-- Where no slot is repeated, values of the occurrences are an assignment. -/
theorem exists_assigns (h : FilledFrom values x y) (hx : (⟨x⟩ : Template).slots.Nodup) :
    ∃ a : Assignment, a.Assigns values ⟨x⟩ ∧ (⟨x⟩ : Template).fill a = ⟨y⟩ := by
  induction h with
  | nil => exact ⟨.empty, nofun, rfl⟩
  | literal text _ ih =>
    obtain ⟨a, ha, hfill⟩ := ih hx
    exact ⟨a, ha, by simpa [Template.fill, Template.fillToken] using hfill⟩
  | @slot s t x y ht _ ih =>
    obtain ⟨hs, hx⟩ := List.nodup_cons.1 hx
    obtain ⟨a, ha, hfill⟩ := ih hx
    -- the value of the first slot does not change the rest, in which the slot does not occur
    have hrest : ∀ k ∈ (⟨x⟩ : Template).slots, (a.insert s t).get? k = a.get? k := by
      intro k hk
      rw [OrderedMap.get?_insert, if_neg]
      intro heq
      exact hs (eq_of_beq heq ▸ hk)
    have hfirst : (a.insert s t).get? s = some t := by
      rw [OrderedMap.get?_insert, if_pos BEq.rfl]
    refine ⟨a.insert s t, fun k hk => ?_, ?_⟩
    · rcases List.mem_cons.1 hk with rfl | hk
      · exact ⟨t, hfirst, ht⟩
      · rw [hrest k hk]
        exact ha k hk
    · rw [← Template.fill_congr hrest] at hfill
      simp only [Template.fill, Template.mk.injEq] at hfill ⊢
      rw [List.flatMap_cons, hfill, Template.fillToken, hfirst]

/-- Distinct slots can all be assigned their values. -/
theorem Assignment.ofPairs?_eq_ok {pairs : List (Slot × Template)}
    (h : (pairs.map Prod.fst).Nodup) : Assignment.ofPairs? pairs = .ok (.ofList pairs) := by
  suffices hall : ∀ a : Assignment, (∀ e ∈ pairs, a.contains e.1 = false) →
      pairs.foldlM (fun a e => a.assign e.1 e.2) a = .ok (a.insertAll pairs) from
    hall .empty fun _ _ => OrderedMap.contains_empty _
  induction pairs with
  | nil => exact fun _ _ => rfl
  | cons e pairs ih =>
    intro a hnew
    obtain ⟨he, hpairs⟩ := List.nodup_cons.1 h
    obtain ⟨hfirst, hrest⟩ := List.forall_mem_cons.1 hnew
    rw [List.foldlM_cons, assign, if_neg (by simp [hfirst])]
    refine ih hpairs (a.insert e.1 e.2) fun f hf => ?_
    rw [OrderedMap.contains_insert, hrest f hf, Bool.false_or, beq_eq_false_iff_ne]
    intro heq
    exact he (heq ▸ List.mem_map_of_mem hf)

namespace Grammar

variable {g : Grammar} {depth : Nat} {sets : Slot → OrderedSet Template}
  {lists : Slot → List Template} {slots : List Slot} {tuple : List Template}

/-! ## Choices of values -/

/-- A choice of values pairs slots with values of theirs. -/
theorem mem_choices_map_iff : tuple ∈ SlotValues.choices (slots.map fun s => (sets s).toList) ↔
    slots.length = tuple.length ∧ ∀ s t, (s, t) ∈ slots.zip tuple → t ∈ (sets s).toList := by
  rw [mem_choices_iff, List.forall₂_map_right_iff]
  constructor
  · intro h
    exact ⟨h.length_eq.symm, fun s t hmem => (List.forall₂_iff_zip.1 h.flip).2 hmem⟩
  · rintro ⟨hlength, hvalues⟩
    exact (List.forall₂_iff_zip.2 ⟨hlength, fun {s t} => hvalues s t⟩).flip

/-- Values of distinct slots can all be chosen and assigned. -/
theorem assignments?_eq_ok {v : SlotValues} (hslots : slots.Nodup)
    (hv : ∀ s ∈ slots, v.get? s = some (sets s)) :
    v.assignments? slots = .ok ((SlotValues.choices (slots.map fun s => (sets s).toList)).map
      fun tuple => .ofList (slots.zip tuple)) := by
  have hlists : slots.mapM v.valuesOf? = .ok (slots.map fun s => (sets s).toList) :=
    mapM_eq_ok fun s hs => by rw [SlotValues.valuesOf?, hv s hs]
  rw [SlotValues.assignments?, SlotValues.tuples?, hlists]
  refine mapM_eq_ok fun tuple htuple => Assignment.ofPairs?_eq_ok ?_
  rwa [List.map_fst_zip (mem_choices_map_iff.1 htuple).1.le]

/-- The map of slots with values of theirs. -/
theorem get?_ofList_zip (hslots : slots.Nodup) (hlength : slots.length = tuple.length)
    (h : (s, t) ∈ slots.zip tuple) : (OrderedMap.ofList (slots.zip tuple)).get? s = some t := by
  have hkeys : ((slots.zip tuple).map Prod.fst).Nodup := by rwa [List.map_fst_zip hlength.le]
  rwa [OrderedMap.get?_eq_some_iff, OrderedMap.entries_ofList_of_nodup hkeys]

theorem mem_zip_map_iff {value : Slot → Template} :
    (s, t) ∈ slots.zip (slots.map value) ↔ s ∈ slots ∧ t = value s := by
  rw [← List.map_prod_left_eq_zip, List.mem_map]
  constructor
  · rintro ⟨k, hk, heq⟩
    obtain ⟨rfl, rfl⟩ := Prod.mk.inj heq
    exact ⟨hk, rfl⟩
  · rintro ⟨hs, rfl⟩
    exact ⟨s, hs, rfl⟩

/-! ## Filled productions -/

/-- A production is filled by each assignment of values to its slots: none of them fails. -/
theorem map_fill_assignments? {v : SlotValues}
    (hv : ∀ s ∈ p.slots, v.get? s = some (.ofList (lists s))) :
    (v.assignments? (OrderedSet.ofList p.slots).toList).map (List.map fun a => p.fill a) =
      .ok (fillAlike lists p) := by
  rw [assignments?_eq_ok (OrderedSet.nodup_toList _) fun s hs => hv s (OrderedSet.mem_ofList.1 hs),
    Except.map, List.map_map, fillAlike]
  rfl

/-- What a production gives comes out of an assignment. -/
theorem mem_fillAlike_iff : t ∈ fillAlike lists p ↔
    ∃ a : Assignment, a.Assigns (fun s t => t ∈ (OrderedSet.ofList (lists s)).toList) p ∧
      p.fill a = t := by
  have hnodup := (OrderedSet.ofList p.slots).nodup_toList
  rw [fillAlike, List.mem_map]
  constructor
  · rintro ⟨tuple, htuple, rfl⟩
    obtain ⟨hlength, hvalues⟩ := mem_choices_map_iff.1 htuple
    refine ⟨_, fun s hs => ?_, rfl⟩
    rw [← OrderedSet.mem_ofList, ← List.map_fst_zip hlength.le] at hs
    obtain ⟨⟨s, t⟩, hmem, rfl⟩ := List.mem_map.1 hs
    exact ⟨t, get?_ofList_zip hnodup hlength hmem, hvalues s t hmem⟩
  · rintro ⟨a, ha, rfl⟩
    choose! value hget hvalue using ha
    have hlength : (OrderedSet.ofList p.slots).toList.length =
        ((OrderedSet.ofList p.slots).toList.map value).length := (List.length_map _).symm
    refine ⟨_, mem_choices_map_iff.2 ⟨hlength, fun s t hmem => ?_⟩, ?_⟩
    · obtain ⟨hs, rfl⟩ := mem_zip_map_iff.1 hmem
      exact hvalue s (OrderedSet.mem_ofList.1 hs)
    · refine Template.fill_congr fun s hs => ?_
      rw [hget s hs]
      exact get?_ofList_zip hnodup hlength
        (mem_zip_map_iff.2 ⟨OrderedSet.mem_ofList.2 hs, rfl⟩)

theorem filledFrom_of_mem_fillAlike (h : t ∈ fillAlike lists p) :
    FilledFrom (fun s t => t ∈ lists s) p.tokens t.tokens := by
  obtain ⟨a, ha, rfl⟩ := mem_fillAlike_iff.1 h
  exact (filledFrom_fill ha).mono fun _ _ => OrderedSet.mem_of_mem_ofList

/-- A production without repeated slots gives all that comes out of values of its occurrences. -/
theorem exists_mem_fillAlike (hp : p.slots.Nodup) (h : FilledFrom values p.tokens t.tokens)
    (hvalues : ∀ s ∈ p.slots, ∀ t, values s t → ∃ t' ∈ lists s, (t' == t) = true) :
    ∃ t' ∈ fillAlike lists p, (t' == t) = true := by
  have hlisted : ∀ s t, (.slot s ∈ p.tokens ∧ values s t) →
      ∃ t', t' ∈ (OrderedSet.ofList (lists s)).toList ∧ (t' == t) = true := by
    rintro s t ⟨hs, ht⟩
    obtain ⟨t', ht', heq⟩ := hvalues s (Template.mem_slots_iff.2 hs) t ht
    refine OrderedSet.contains_iff.1 ?_
    rw [OrderedSet.contains_ofList, List.any_eq_true]
    exact ⟨t', ht', heq⟩
  obtain ⟨y, hy, heq⟩ := h.within.exists_beq hlisted
  obtain ⟨a, ha, hfill⟩ := exists_assigns hy hp
  exact ⟨⟨y⟩, mem_fillAlike_iff.2 ⟨a, ha, hfill⟩, heq⟩

/-! ## Generated templates -/

theorem generates_of_mem_generateShared (h : t ∈ g.generateShared depth s) :
    g.Generates depth s t := by
  refine generates_of_expand (fun (all : List Template) t => t ∈ all)
    (fun _ _ => List.mem_singleton.1) (fun lists ps t ht => ?_) h
  obtain ⟨p, hp, hfilled⟩ := List.mem_flatMap.1 ht
  exact ⟨p, hp, filledFrom_of_mem_fillAlike hfilled⟩

theorem exists_mem_generateShared
    (hs : ∀ k, Reaches g.references s k → ∀ p ∈ g.productions k, p.slots.Nodup)
    (h : g.Generates depth s t) : ∃ t' ∈ g.generateShared depth s, (t' == t) = true := by
  induction depth generalizing s t with
  | zero => exact ⟨t, List.mem_singleton.2 h, BEq.rfl⟩
  | succ depth ih =>
    cases hrule : g.rules.get? s with
    | none =>
      rw [generateShared, expand, hrule]
      exact ⟨t, List.mem_singleton.2 ((generates_of_no_rule hrule).1 h), BEq.rfl⟩
    | some ps =>
      obtain ⟨p, hp, hfilled⟩ := (generates_of_rule hrule).1 h
      have hnodup : p.slots.Nodup :=
        hs s (.refl g.references s) p (productions_of_get? hrule ▸ hp)
      have hbelow : ∀ k ∈ p.slots, ∀ t, g.Generates depth k t →
          ∃ t' ∈ g.generateShared depth k, (t' == t) = true := fun k hk _ ht =>
        ih (fun l hl => hs l (.head (mem_references g hrule hp hk) hl)) ht
      obtain ⟨t', ht', heq⟩ := exists_mem_fillAlike hnodup hfilled hbelow
      rw [generateShared, expand, hrule]
      exact ⟨t', List.mem_flatMap.2 ⟨p, hp, ht'⟩, heq⟩

theorem generateShared?_eq_ok (hs : g.isDefined s = true) :
    g.generateShared? s depth = .ok (g.generateShared depth s) := by
  rw [generateShared?, productions?_eq_ok hs]
  rfl

/-- **Values shared by occurrences are values of the occurrences.** What a defined slot gives with
all occurrences of a slot in a production filled alike it gives with each occurrence filled on its
own. If no production that can be reached mentions a slot twice, both are the same templates. -/
theorem shared_generation_refines (depth : Nat) (hs : g.isDefined s = true) :
    ∃ all shared, g.generateAll? s depth = .ok all ∧ g.generateShared? s depth = .ok shared ∧
      (∀ t ∈ shared, all.contains t = true) ∧
      ((∀ k, Reaches g.references s k → ∀ p ∈ g.productions k, p.slots.Nodup) →
        ∀ t, all.contains t = true ↔ ∃ t' ∈ shared, (t' == t) = true) := by
  have refines : ∀ t ∈ g.generateShared depth s, (g.generateAll depth s).contains t = true :=
    fun t ht => contains_generateAll_iff.2 ⟨t, generates_of_mem_generateShared ht, BEq.rfl⟩
  refine ⟨_, _, generateAll?_eq_ok hs, generateShared?_eq_ok hs, refines, fun hnodup t => ?_⟩
  constructor
  · intro ht
    obtain ⟨u, hu, hut⟩ := contains_generateAll_iff.1 ht
    obtain ⟨t', ht', heq⟩ := exists_mem_generateShared hnodup hu
    exact ⟨t', ht', BEq.trans heq hut⟩
  · rintro ⟨t', ht', heq⟩
    rw [← OrderedSet.contains_congr heq]
    exact refines t' ht'

/-- Lists of items of which some are lists again; what follows an item is left open, and no end is
ever written. -/
def openLists : Grammar where
  start := origin
  rules := ((OrderedMap.empty.insert origin
      [⟨[.slot (.named "item"), .slot (.named "rest")]⟩, ⟨[.slot (.named "end")]⟩]).insert
    (.named "item") [⟨[.literal "x"]⟩, ⟨[.literal "(", .slot origin]⟩]).insert (.named "end") []

theorem shared_generation_refines_openLists :
    openLists.isDefined origin = true ∧
      (∀ k, Reaches openLists.references origin k →
        ∀ p ∈ openLists.productions k, p.slots.Nodup) ∧
      ∃ all shared, openLists.generateAll? origin 3 = .ok all ∧
        openLists.generateShared? origin 3 = .ok shared ∧
        (∀ t ∈ shared, all.contains t = true) ∧
        ∀ t, all.contains t = true ↔ ∃ t' ∈ shared, (t' == t) = true := by
  have hs : openLists.isDefined origin = true := by decide
  have hnodup : ∀ k, Reaches openLists.references origin k →
      ∀ p ∈ openLists.productions k, p.slots.Nodup := by
    intro k _ p hp
    obtain ⟨ps, hrule, hp⟩ := exists_rule_of_mem_productions hp
    have hentries : ∀ e ∈ openLists.rules.entries, ∀ p ∈ e.2, p.slots.Nodup := by decide
    exact hentries (k, ps) hrule p hp
  obtain ⟨all, shared, hall, hshared, hrefines, hsame⟩ := shared_generation_refines 3 hs
  exact ⟨hs, hnodup, all, shared, hall, hshared, hrefines, hsame hnodup⟩

example : (sharedNames.generateAll 2 origin).size = 5 ∧
    (sharedNames.generateShared 2 origin).length = 3 := by decide

end Grammar

end GrammarInduction
