import GrammarInduction.Proofs.Grammar.Document
import GrammarInduction.Proofs.Grammar.Sorting
import GrammarInduction.Proofs.Text.Marker
import GrammarInduction.Proofs.Walk.Sweep
import Mathlib.Data.List.Nodup

/-!
# Grammars exchanged as texts

Rules that are read from texts are `Readable`: named slots define them, and their productions are
made of tokens that can be cut from a text (`readable_ofTexts`). The document of a readable grammar
names every rule once, reachable from the start or not (`sortedSlots_perm`), with the texts of all its
productions, and reading these texts gives an equal grammar (`ofTexts_toDocument`). With the round
trip of documents this is the round trip of grammars through JSON (`ofJson?_toJson`).
-/

namespace GrammarInduction

namespace Grammar

open Text

variable {style : SlotStyle} {g : Grammar}

/-! ## Rules read from texts -/

/-- A rule with the form of the texts that it is read from. -/
structure Reads (style : SlotStyle) (entry : String × List String) (rule : Slot × List Template) :
    Prop where
  name : rule.1 = .named entry.1
  forms : rule.2.map Template.form = entry.2.map fun text => formOf style text.toList
  written : ∀ p ∈ rule.2, ∀ token ∈ p.tokens, Written style token

theorem map_form_parseAll (style : SlotStyle) (texts : List String) (supply : Nat) :
    (Template.parseAll words style texts supply).1.map Template.form =
      texts.map fun text => formOf style text.toList := by
  induction texts generalizing supply with
  | nil => rfl
  | cons text texts ih =>
    rw [Template.parseAll, List.map_cons, List.map_cons, form_parse, ih]

theorem written_of_mem_parseAll {texts : List String} {supply : Nat} :
    ∀ p ∈ (Template.parseAll words style texts supply).1, ∀ token ∈ p.tokens,
      Written style token := by
  induction texts generalizing supply with
  | nil => exact fun p hp => absurd hp List.not_mem_nil
  | cons text texts ih => exact List.forall_mem_cons.2 ⟨written_of_mem_tokens style text supply, ih⟩

/-- Rules are added in the order of their names, as long as no name comes twice. -/
theorem entries_addTexts (style : SlotStyle) {entries : List (String × List String)}
    {rules : OrderedMap Slot (List Template)} (supply : Nat)
    (h : (rules.keys ++ entries.map fun entry => Slot.named entry.1).Nodup) :
    ∃ added, (addTexts style entries rules supply).1.entries = rules.entries ++ added ∧
      List.Forall₂ (Reads style) entries added := by
  induction entries generalizing rules supply with
  | nil => exact ⟨[], (List.append_nil _).symm, .nil⟩
  | cons entry entries ih =>
    have hnew : rules.contains (.named entry.1) = false := by
      rw [← Bool.not_eq_true, OrderedMap.contains_iff_mem_keys]
      intro hmem
      exact (List.disjoint_of_nodup_append h) hmem (by simp)
    have hentries := OrderedMap.entries_update_of_not_contains hnew fun known =>
      known.getD [] ++ (Template.parseAll words style entry.2 supply).1
    have hkeys := OrderedMap.keys_update rules (.named entry.1) fun known =>
      known.getD [] ++ (Template.parseAll words style entry.2 supply).1
    rw [hnew, if_neg Bool.false_ne_true] at hkeys
    rw [List.map_cons, List.append_cons, ← hkeys] at h
    obtain ⟨added, hadded, hreads⟩ := ih (Template.parseAll words style entry.2 supply).2 h
    rw [hentries, List.append_assoc, List.singleton_append] at hadded
    exact ⟨_, hadded,
      .cons ⟨rfl, map_form_parseAll style entry.2 supply, written_of_mem_parseAll⟩ hreads⟩

theorem nodup_named_entries (document : Document) :
    (document.entries.map fun entry => Slot.named entry.1).Nodup := by
  have hinjective : Function.Injective Slot.named := fun _ _ => Slot.named.inj
  have hkeys := document.nodup_keys.map hinjective
  rwa [OrderedMap.keys, List.map_map] at hkeys

/-- Each rule of a grammar that is read has the name and the texts of one entry. -/
theorem reads_ofTexts (style : SlotStyle) (document : Document) (supply : Nat) :
    List.Forall₂ (Reads style) document.entries
      (ofTexts style document.entries supply).1.rules.entries := by
  have hnew : ((OrderedMap.empty : OrderedMap Slot (List Template)).keys ++
      document.entries.map fun entry => Slot.named entry.1).Nodup := nodup_named_entries document
  obtain ⟨added, hadded, hreads⟩ := entries_addTexts style supply hnew
  rw [OrderedMap.entries_empty, List.nil_append] at hadded
  rw [← hadded] at hreads
  exact hreads

/-- A grammar with rules that can be read from texts. -/
structure Readable (style : SlotStyle) (g : Grammar) : Prop where
  start : g.start = origin
  named : ∀ s ∈ g.slots, s.isNamed = true
  written : ∀ s, ∀ p ∈ g.productions s, ∀ token ∈ p.tokens, Written style token

theorem readable_ofTexts (style : SlotStyle) (document : Document) (supply : Nat) :
    Readable style (ofTexts style document.entries supply).1 := by
  have hreads := reads_ofTexts style document supply
  refine ⟨rfl, fun s hs => ?_, fun s p hp => ?_⟩
  · obtain ⟨rule, hrule, rfl⟩ := List.mem_map.1 hs
    obtain ⟨entry, -, hentry⟩ := Walk.exists_of_mem_right hreads hrule
    rw [hentry.name]
    rfl
  · obtain ⟨ps, hrule, hp⟩ := exists_rule_of_mem_productions hp
    obtain ⟨entry, -, hentry⟩ := Walk.exists_of_mem_right hreads hrule
    exact hentry.written p hp

/-! ## Rules written as texts -/

theorem Readable.eq_named_key (h : Readable style g) {s : Slot} (hs : s ∈ g.sortedSlots) :
    s = .named s.key := by
  have hnamed := h.named s ((sortedSlots_perm g).mem_iff.1 hs)
  cases s with
  | named name => rfl
  | anonymous id => cases hnamed

theorem Readable.entries_toDocument (h : Readable style g) (write : Template → String) :
    (g.toDocument write).entries =
      g.sortedSlots.map fun slot => (slot.key, g.sortedTexts write slot) := by
  refine OrderedMap.entries_insertAll_of_new (m := .empty) ?_
  rw [OrderedMap.entries_empty, List.nil_append, List.pairwise_map]
  have hnodup : g.sortedSlots.Nodup := (sortedSlots_perm g).nodup_iff.2 g.rules.nodup_keys
  refine List.Pairwise.imp_of_mem (fun {s t} hs ht hne => ?_) hnodup
  rw [beq_eq_false_iff_ne]
  intro hkey
  exact hne ((h.eq_named_key hs).trans ((congrArg Slot.named hkey).trans (h.eq_named_key ht).symm))

/-- How a template is written in a style, marks of punctuation attached. -/
def writeTemplate (style : SlotStyle) (t : Template) : String :=
  joinWords (t.tokens.map style.write)

/-- A rule that is read from the written productions of a slot has the same productions. -/
theorem Readable.sameProductions (h : Readable style g) {s : Slot} {rule : Slot × List Template}
    (hrule : Reads style (s.key, g.sortedTexts (writeTemplate style) s) rule) :
    Grammar.sameProductions rule.2 (g.productions s) = true := by
  have hform : ∀ p ∈ g.productions s, formOf style (writeTemplate style p).toList = p.form :=
    fun p hp => formOf_joinWords (h.written s p hp)
  rw [sameProductions_iff, hrule.forms]
  refine ((List.mergeSort_perm _ _).map _).trans ?_
  rw [List.map_map]
  exact .of_eq (List.map_congr_left hform)

/-- **Reading the document of a readable grammar gives an equal grammar.** -/
theorem ofTexts_toDocument (h : Readable style g) (supply : Nat) :
    ((ofTexts style (g.toDocument (writeTemplate style)).entries supply).1 == g) = true := by
  have hreads := reads_ofTexts style (g.toDocument (writeTemplate style)) supply
  rw [h.entries_toDocument] at hreads ⊢
  refine Bool.and_eq_true_iff.2 ⟨Bool.and_eq_true_iff.2 ⟨?_, ?_⟩, ?_⟩
  · rw [h.start]
    rfl
  · have hlength := hreads.length_eq
    rw [List.length_map, (sortedSlots_perm g).length_eq, slots, OrderedMap.keys, List.length_map]
      at hlength
    exact beq_iff_eq.2 hlength.symm
  · refine List.all_eq_true.2 fun rule hrule => ?_
    obtain ⟨entry, hentry, hread⟩ := Walk.exists_of_mem_right hreads hrule
    obtain ⟨s, hs, rfl⟩ := List.mem_map.1 hentry
    have hdefined : g.rules.contains s = true :=
      OrderedMap.contains_iff_mem_keys.2 ((sortedSlots_perm g).mem_iff.1 hs)
    rw [OrderedMap.contains_eq_isSome, Option.isSome_iff_exists] at hdefined
    obtain ⟨ps, hps⟩ := hdefined
    have hsame := h.sameProductions hread
    rw [productions, hps, Option.getD_some] at hsame
    change (g.rules.get? rule.1).any (Grammar.sameProductions rule.2) = true
    rw [hread.name, ← h.eq_named_key hs, hps]
    exact hsame

/-! ## Through JSON -/

/-- **A grammar that was read from JSON is read again from its JSON text**: the start, the slots that are
defined and the productions of each of them, as often as they occur, are the same. -/
theorem ofJson?_toJson {text : String} {supply rest : Nat}
    (h : ofJson? text supply = .ok (g, rest)) (next : Nat) :
    ∃ again after, ofJson? g.toJson next = .ok (again, after) ∧ (again == g) = true := by
  obtain ⟨document, -, hg⟩ := map_eq_ok h
  have hreadable : Readable .angle g := by
    have hread := readable_ofTexts .angle document supply
    rwa [hg] at hread
  refine ⟨_, (ofTexts .angle (g.toDocument (writeTemplate .angle)).entries next).2, ?_,
    ofTexts_toDocument hreadable next⟩
  rw [ofJson?, toJson, Document.read?_toText]
  rfl

/-- Rules with brackets, quotes and marks around slots, one of them anonymous; to the second rule the
start does not lead, and it has the same production twice. -/
def markedRules : String :=
  "\x7b\"origin\": [\"(<A>), [SLOT] \\\"é\\\"!\"], \"B\": [\"y.\", \"y.\"]\x7d"

theorem ofJson?_toJson_of_marks :
    ∃ g rest, ofJson? markedRules 0 = .ok (g, rest) ∧
      g.rules.entries.map (fun rule => (rule.1, rule.2.map Template.tokens)) =
        [(.named "origin",
          [[.literal "(", .slot (.named "A"), .literal ")", .literal ",", .slot (.anonymous 0),
            .literal "\"", .literal "é", .literal "\"", .literal "!"]]),
          (.named "B", [[.literal "y", .literal "."], [.literal "y", .literal "."]])] ∧
      ∃ again after, ofJson? g.toJson rest = .ok (again, after) ∧ (again == g) = true := by
  obtain ⟨⟨g, rest⟩, hg, hrules⟩ : ∃ read, ofJson? markedRules 0 = .ok read ∧
      read.1.rules.entries.map (fun rule => (rule.1, rule.2.map Template.tokens)) =
        [(.named "origin",
          [[.literal "(", .slot (.named "A"), .literal ")", .literal ",", .slot (.anonymous 0),
            .literal "\"", .literal "é", .literal "\"", .literal "!"]]),
          (.named "B", [[.literal "y", .literal "."], [.literal "y", .literal "."]])] := by
    apply exists_of_toOption
    decide +kernel
  exact ⟨g, rest, hg, hrules, ofJson?_toJson hg rest⟩

end Grammar

end GrammarInduction
