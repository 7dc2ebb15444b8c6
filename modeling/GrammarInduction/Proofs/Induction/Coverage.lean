import GrammarInduction.Proofs.Induction.Stages
import GrammarInduction.Proofs.Learner.Shape

/-!
# Induced grammars cover their lines

The learned tree carries the templates of the lines (`carries_learned`), the rounds of recalculation
hand on trees that do (`covers_settle`), and so does the last tree, from which the grammar is read
off. So the grammar derives every line, and all slots in it are defined (`induced_covers_lines`).
-/

namespace GrammarInduction.Induction

open Arena Grammar

variable {inputs : List Template} {a : Arena} {root supply : Nat} {settings : Settings}
  {g : Grammar}

theorem result_observed (p : Progress) (round : Nat) (r : Report) :
    (p.observed round r).result = r.result := by
  unfold Progress.observed
  split <;> rfl

section Rounds

variable (hinputs : ∀ t ∈ inputs, t.hasSlots = false) (hdepth : settings.maxDepth ≠ some 0)

include hinputs hdepth

theorem covers_conclude (h : Carries Slot.Ready inputs a root) {v : SlotValues}
    (hg : (conclude settings a root v).result = .ok g) : Covers g inputs := by
  have hspliced := carries_splice hinputs h v.values
  unfold conclude at hg
  generalize a.splice v.values root = spliced at *
  obtain ⟨b, spliced⟩ := spliced
  cases hmax : settings.maxDepth with
  | none =>
    rw [hmax] at hg
    exact covers_readOff hspliced hinputs hg
  | some depth =>
    rw [hmax] at hg
    have hne : depth ≠ 0 := by
      rintro rfl
      exact hdepth hmax
    have hflat := carries_flatten hspliced hne
    simp only [Report.result_after] at hg
    generalize b.flatten spliced depth = flat at *
    exact covers_readOff hflat hinputs hg

theorem covers_settle {times round : Nat} {p : Progress}
    (hroot : Carries Slot.Ready inputs p.arena p.root)
    (hnext : Carries Slot.Ready inputs p.arena p.next)
    (hg : (settle settings times round p).result = .ok g) : Covers g inputs := by
  induction times generalizing round p with
  | zero =>
    unfold settle at hg
    split at hg
    · exact covers_conclude hinputs hdepth hroot hg
    · rw [result_observed] at hg
      cases hg
  | succ times ih =>
    unfold settle at hg
    split at hg
    · exact covers_conclude hinputs hdepth hroot hg
    · rw [result_observed, Report.result_onward_eq_ok] at hg
      obtain ⟨p', hp', hg⟩ := hg
      obtain ⟨hroot', hnext'⟩ := carries_recalculate hinputs hnext hp'
      exact ih hroot' hnext' hg

theorem covers_refine (h : Carries Slot.Unreserved inputs a root)
    (hg : (refine settings a root supply).result = .ok g) : Covers g inputs := by
  obtain ⟨s, hs, hg⟩ := Report.result_onward_eq_ok.1 hg
  obtain ⟨-, hcarries⟩ := carries_simplify hinputs h hs
  have hspliced := carries_splice hinputs hcarries s.values.values
  simp only [Report.result_after] at hg
  generalize s.arena.splice s.values.values s.root = spliced at *
  exact covers_settle hinputs hdepth hspliced hspliced hg

theorem covers_pruneAndRefine (h : Carries Slot.Unreserved inputs a root)
    (hg : (pruneAndRefine settings a root supply).result = .ok g) : Covers g inputs := by
  have hpruned := carries_prune h
  unfold pruneAndRefine at hg
  split at hg
  · simp only [Report.result_after] at hg
    exact covers_refine hinputs hdepth hpruned hg
  · exact covers_refine hinputs hdepth h hg

end Rounds

/-- The learned tree carries the templates learned from. -/
theorem carries_learned {learner : Learner} {supply' : Nat} {arena : Arena}
    (hmin : learner.minimalVariables = true) (hinputs : ∀ t ∈ inputs, t.hasSlots = false)
    (h : learner.learn arena inputs supply = .ok ((a, root), supply')) :
    Carries Slot.Unreserved inputs a root := by
  obtain ⟨s, r, hs, hr, -, hbuilt⟩ := Learner.exists_built_of_learn hmin hinputs h
  refine ⟨hbuilt.lt, fun t => LearnerState.mem_leaves_of_built hs hinputs hr hbuilt, ?_⟩
  rintro i hi s hs rfl
  cases (hbuilt.plain i hi).anonymous _ hs

/-- **Induced grammars cover their lines.** If the templates of lines have no slots, and a grammar
is induced with minimal variables and at any depth but 0, then it derives every template from its
start, and all slots that it refers to are defined. -/
theorem induced_covers_lines {tokenizer : Tokenizer} {lines : List String}
    (hslots : ∀ t ∈ (Learner.parseLines tokenizer lines 0).1, t.hasSlots = false)
    (hmin : settings.minimalVariables = true) (hdepth : settings.maxDepth ≠ some 0)
    (hg : (induce settings tokenizer lines).result = .ok g) :
    (∀ t ∈ (Learner.parseLines tokenizer lines 0).1,
      Derives g.productions [.slot g.start] t.tokens) ∧ g.undefinedSlots = [] := by
  obtain ⟨⟨⟨a, root⟩, supply⟩, hlearn, hg⟩ := Report.result_onward_eq_ok.1 hg
  have hcarries := carries_learned hmin hslots hlearn
  have hcovers := covers_pruneAndRefine hslots hdepth hcarries hg
  exact ⟨hcovers.derives, hcovers.defined⟩

/-- The grammar of three lines that share a word. -/
theorem induced_covers_three_lines :
    ∃ g, (induce { prune := false } Text.words ["red bus", "red car", "red van"]).result = .ok g ∧
      (∀ t ∈ (Learner.parseLines Text.words ["red bus", "red car", "red van"] 0).1,
        t.hasSlots = false) ∧
      (∀ t ∈ (Learner.parseLines Text.words ["red bus", "red car", "red van"] 0).1,
        Derives g.productions [.slot g.start] t.tokens) ∧ g.undefinedSlots = [] := by
  have hslots : ∀ t ∈ (Learner.parseLines Text.words ["red bus", "red car", "red van"] 0).1,
      t.hasSlots = false := by
    decide +kernel
  have hok : (induce { prune := false } Text.words
      ["red bus", "red car", "red van"]).result.isOk = true := by
    decide +kernel
  cases hg : (induce { prune := false } Text.words ["red bus", "red car", "red van"]).result with
  | error e => simp [hg, Except.isOk, Except.toBool] at hok
  | ok g => exact ⟨g, rfl, hslots, induced_covers_lines hslots rfl (by decide) hg⟩

end GrammarInduction.Induction
