/-!
# Procedures that can fail

What is known of a procedure that has succeeded or failed: `bind_eq_ok` and `bind_eq_error` take a
sequence of two steps apart, `map_eq_ok` and `map_eq_error` a step with a change of its value.
`exists_of_toOption` and `eq_error_of_tryCatch` find the value or the failure of one that can be
evaluated. A list is mapped to the end if each member is (`mapM_eq_ok`).

`foldlM_induct`, `foldlM_induct_rest` and `foldlM_establish` are about what the steps of a fold keep,
and what they establish, and `exists_step_of_mem` finds the step of a member; by `exists_foldlM` a
fold succeeds if its steps do, and by `foldlM_error` it fails where one does.
-/

namespace GrammarInduction

universe u v w

variable {ε : Type u} {α : Type v} {β : Type v} {σ : Type v} {κ : Type w}

theorem bind_eq_ok {x : Except ε α} {f : α → Except ε β} {b : β} (h : x >>= f = .ok b) :
    ∃ a, x = .ok a ∧ f a = .ok b := by
  cases x with
  | error e => simp [bind, Except.bind] at h
  | ok a => exact ⟨a, rfl, h⟩

theorem bind_eq_error {x : Except ε α} {f : α → Except ε β} {e : ε} (h : x >>= f = .error e) :
    x = .error e ∨ ∃ a, x = .ok a ∧ f a = .error e := by
  cases x with
  | error e' => exact .inl (congrArg Except.error (Except.error.inj h))
  | ok a => exact .inr ⟨a, rfl, h⟩

theorem map_eq_ok {x : Except ε α} {f : α → β} {b : β} (h : x.map f = .ok b) :
    ∃ a, x = .ok a ∧ f a = b := by
  cases x with
  | error e => simp [Except.map] at h
  | ok a => exact ⟨a, rfl, Except.ok.inj h⟩

theorem map_eq_error {x : Except ε α} {f : α → β} {e : ε} (h : x.map f = .error e) :
    x = .error e := by
  cases x with
  | error e' => exact congrArg Except.error (Except.error.inj h)
  | ok a => cases h

theorem exists_of_toOption {x : Except ε α} {f : α → β} {b : β}
    (h : x.toOption.map f = some b) : ∃ a, x = .ok a ∧ f a = b := by
  cases x with
  | error e => cases h
  | ok a => exact ⟨a, rfl, Option.some.inj h⟩

theorem eq_error_of_tryCatch {x : Except ε α} {e : ε}
    (h : ((x.map fun _ => none).tryCatch fun e => .ok (some e)).toOption = some (some e)) :
    x = .error e := by
  cases x with
  | error e' => exact congrArg Except.error (Option.some.inj (Option.some.inj h))
  | ok a => cases h

theorem mapM_eq_ok {f : κ → Except ε α} {g : κ → α} {as : List κ}
    (h : ∀ a ∈ as, f a = .ok (g a)) : as.mapM f = .ok (as.map g) := by
  induction as with
  | nil => rfl
  | cons a as ih =>
    rw [List.mapM_cons, h a List.mem_cons_self, ih fun b hb => h b (.tail _ hb)]
    rfl

/-- What every successful step keeps, for what is left to do after it, holds after a successful fold. -/
theorem foldlM_induct_rest {f : σ → κ → Except ε σ} {I : List κ → σ → Prop} {as : List κ} {s s' : σ}
    (hs : I as s) (step : ∀ a as s s', I (a :: as) s → f s a = .ok s' → I as s')
    (h : as.foldlM f s = .ok s') : I [] s' := by
  induction as generalizing s with
  | nil =>
    obtain rfl : s = s' := Except.ok.inj h
    exact hs
  | cons a as ih =>
    rw [List.foldlM_cons] at h
    obtain ⟨mid, hmid, h⟩ := bind_eq_ok h
    exact ih (step a as s mid hs hmid) h

/-- What every successful step keeps holds after a successful fold. -/
theorem foldlM_induct {f : σ → κ → Except ε σ} {I : σ → Prop} {as : List κ} {s s' : σ} (hs : I s)
    (step : ∀ a ∈ as, ∀ s s', I s → f s a = .ok s' → I s') (h : as.foldlM f s = .ok s') : I s' := by
  refine (foldlM_induct_rest (I := fun rest s => rest ⊆ as ∧ I s) ⟨List.Subset.refl as, hs⟩ ?_ h).2
  rintro a rest s s' ⟨hrest, hs⟩ hstep
  exact ⟨fun b hb => hrest (.tail _ hb), step a (hrest (.head _)) s s' hs hstep⟩

/-- A fold fails where a step does. -/
theorem foldlM_error {f : σ → κ → Except ε σ} {as : List κ} {s : σ} {e : ε}
    (h : as.foldlM f s = .error e) : ∃ a ∈ as, ∃ s, f s a = .error e := by
  induction as generalizing s with
  | nil => cases h
  | cons a as ih =>
    rw [List.foldlM_cons] at h
    rcases bind_eq_error h with h | ⟨s', -, h⟩
    · exact ⟨a, List.mem_cons_self, s, h⟩
    · obtain ⟨b, hb, hfails⟩ := ih h
      exact ⟨b, .tail _ hb, hfails⟩

/-- A fold succeeds if each step does where an invariant holds, and keeps the invariant for what is
left to do. -/
theorem exists_foldlM {f : σ → κ → Except ε σ} {I : List κ → σ → Prop} {as : List κ} {s : σ}
    (hs : I as s) (step : ∀ a as s, I (a :: as) s → ∃ s', f s a = .ok s' ∧ I as s') :
    ∃ s', as.foldlM f s = .ok s' ∧ I [] s' := by
  induction as generalizing s with
  | nil => exact ⟨s, rfl, hs⟩
  | cons a as ih =>
    obtain ⟨mid, hmid, hI⟩ := step a as s hs
    obtain ⟨s', hs', hI⟩ := ih hI
    refine ⟨s', ?_, hI⟩
    rw [List.foldlM_cons, hmid]
    exact hs'

/-- A fold of steps that change nothing. -/
theorem foldlM_eq_self {f : σ → κ → Except ε σ} {as : List κ} {s : σ}
    (h : ∀ a ∈ as, f s a = .ok s) : as.foldlM f s = .ok s := by
  induction as with
  | nil => rfl
  | cons a as ih =>
    rw [List.foldlM_cons, h a List.mem_cons_self]
    exact ih fun b hb => h b (.tail _ hb)

/-- A successful fold over a list takes a successful step for each member. -/
theorem exists_step_of_mem {f : σ → κ → Except ε σ} {as : List κ} {a : κ} {s s' : σ} (ha : a ∈ as)
    (h : as.foldlM f s = .ok s') :
    ∃ before after mid mid', as = before ++ a :: after ∧ before.foldlM f s = .ok mid ∧
      f mid a = .ok mid' ∧ after.foldlM f mid' = .ok s' := by
  obtain ⟨before, after, rfl⟩ := List.append_of_mem ha
  rw [List.foldlM_append] at h
  obtain ⟨mid, hmid, h⟩ := bind_eq_ok h
  rw [List.foldlM_cons] at h
  obtain ⟨mid', hmid', h⟩ := bind_eq_ok h
  exact ⟨before, after, mid, mid', rfl, hmid, hmid', h⟩

/-- What each successful step establishes for its member and keeps for the others holds of all
members after a successful fold. -/
theorem foldlM_establish {f : σ → κ → Except ε σ} {R : κ → σ → Prop} {as : List κ} {s s' : σ}
    (step : ∀ a s s', f s a = .ok s' → R a s' ∧ ∀ b, R b s → R b s')
    (h : as.foldlM f s = .ok s') : ∀ a ∈ as, R a s' := by
  induction as generalizing s with
  | nil => exact fun a ha => absurd ha List.not_mem_nil
  | cons b as ih =>
    rw [List.foldlM_cons] at h
    obtain ⟨mid, hmid, hrest⟩ := bind_eq_ok h
    intro a ha
    rcases List.mem_cons.1 ha with rfl | ha
    · exact foldlM_induct (I := R a) (step a s mid hmid).1
        (fun b _ s s' hs hb => (step b s s' hb).2 a hs) hrest
    · exact ih hrest a ha

end GrammarInduction
