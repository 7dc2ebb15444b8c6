import GrammarInduction.Alignment
import GrammarInduction.Arena
import GrammarInduction.Arena.Collapse
import GrammarInduction.Arena.Lattice
import GrammarInduction.Arena.Prune
import GrammarInduction.Arena.Rebuild
import GrammarInduction.Arena.Text
import GrammarInduction.Arena.Traversal
import GrammarInduction.Failure
import GrammarInduction.Grammar
import GrammarInduction.Grammar.Analysis
import GrammarInduction.Grammar.Document
import GrammarInduction.Grammar.Expansion
import GrammarInduction.Grammar.Generation
import GrammarInduction.Grammar.Isomorphism
import GrammarInduction.Grammar.OfValues
import GrammarInduction.Grammar.Random
import GrammarInduction.Grammar.Tracery
import GrammarInduction.Induction
import GrammarInduction.Induction.Settings
import GrammarInduction.Json
import GrammarInduction.Json.Number
import GrammarInduction.Json.Reader
import GrammarInduction.Json.Text
import GrammarInduction.Learner
import GrammarInduction.Learner.Candidate
import GrammarInduction.Learner.State
import GrammarInduction.Ordered.Map
import GrammarInduction.Ordered.Set
import GrammarInduction.Proofs.Alignment.Optimality
import GrammarInduction.Proofs.Arena.Attaching
import GrammarInduction.Proofs.Arena.Below
import GrammarInduction.Proofs.Arena.Collapsing
import GrammarInduction.Proofs.Arena.Covering
import GrammarInduction.Proofs.Arena.Depth
import GrammarInduction.Proofs.Arena.Flattening
import GrammarInduction.Proofs.Arena.Growth
import GrammarInduction.Proofs.Arena.Image
import GrammarInduction.Proofs.Arena.Joining
import GrammarInduction.Proofs.Arena.Naming
import GrammarInduction.Proofs.Arena.NormalForm
import GrammarInduction.Proofs.Arena.Passes
import GrammarInduction.Proofs.Arena.Pruning
import GrammarInduction.Proofs.Arena.Redundancy
import GrammarInduction.Proofs.Arena.Regeneration
import GrammarInduction.Proofs.Arena.Renaming
import GrammarInduction.Proofs.Arena.Sharing
import GrammarInduction.Proofs.Arena.Splicing
import GrammarInduction.Proofs.Arena.Values
import GrammarInduction.Proofs.Arena.Widening
import GrammarInduction.Proofs.Grammar.Analysis
import GrammarInduction.Proofs.Grammar.Definedness
import GrammarInduction.Proofs.Grammar.Depth
import GrammarInduction.Proofs.Grammar.Derivation
import GrammarInduction.Proofs.Grammar.Document
import GrammarInduction.Proofs.Grammar.Equivalence
import GrammarInduction.Proofs.Grammar.Exchange
import GrammarInduction.Proofs.Grammar.Exhaustive
import GrammarInduction.Proofs.Grammar.Generation
import GrammarInduction.Proofs.Grammar.Invariance
import GrammarInduction.Proofs.Grammar.Isomorphism
import GrammarInduction.Proofs.Grammar.Modifiers
import GrammarInduction.Proofs.Grammar.ReadOff
import GrammarInduction.Proofs.Grammar.Recursion
import GrammarInduction.Proofs.Grammar.RootLanguage
import GrammarInduction.Proofs.Grammar.Sampling
import GrammarInduction.Proofs.Grammar.SavedVariables
import GrammarInduction.Proofs.Grammar.Shared
import GrammarInduction.Proofs.Grammar.Sorting
import GrammarInduction.Proofs.Grammar.Tracery
import GrammarInduction.Proofs.Grammar.Trees
import GrammarInduction.Proofs.Induction.Coverage
import GrammarInduction.Proofs.Induction.Stages
import GrammarInduction.Proofs.Json.Lexemes
import GrammarInduction.Proofs.Learner.Building
import GrammarInduction.Proofs.Learner.Confinement
import GrammarInduction.Proofs.Learner.Exhaustion
import GrammarInduction.Proofs.Learner.Invariant
import GrammarInduction.Proofs.Learner.Ranking
import GrammarInduction.Proofs.Learner.Rounds
import GrammarInduction.Proofs.Learner.Shape
import GrammarInduction.Proofs.Learner.Symmetry
import GrammarInduction.Proofs.Learner.Termination
import GrammarInduction.Proofs.Learner.Windows
import GrammarInduction.Proofs.Outcome
import GrammarInduction.Proofs.SlotNames
import GrammarInduction.Proofs.SlotRenaming
import GrammarInduction.Proofs.SlotValues.Chains
import GrammarInduction.Proofs.SlotValues.Closed
import GrammarInduction.Proofs.SlotValues.Dates
import GrammarInduction.Proofs.SlotValues.Exactness
import GrammarInduction.Proofs.SlotValues.Fixpoint
import GrammarInduction.Proofs.SlotValues.Grading
import GrammarInduction.Proofs.SlotValues.Irreducible
import GrammarInduction.Proofs.SlotValues.Keeping
import GrammarInduction.Proofs.SlotValues.Links
import GrammarInduction.Proofs.SlotValues.Lossless
import GrammarInduction.Proofs.SlotValues.Merged
import GrammarInduction.Proofs.SlotValues.Pace
import GrammarInduction.Proofs.SlotValues.Plain
import GrammarInduction.Proofs.SlotValues.Quiet
import GrammarInduction.Proofs.SlotValues.Range
import GrammarInduction.Proofs.SlotValues.Reduced
import GrammarInduction.Proofs.SlotValues.Remaining
import GrammarInduction.Proofs.SlotValues.Rounds
import GrammarInduction.Proofs.SlotValues.Settling
import GrammarInduction.Proofs.SlotValues.Shapes
import GrammarInduction.Proofs.SlotValues.Similarity
import GrammarInduction.Proofs.SlotValues.Turn
import GrammarInduction.Proofs.Template.Covering
import GrammarInduction.Proofs.Template.Encompassing
import GrammarInduction.Proofs.Template.Extraction
import GrammarInduction.Proofs.Template.Filling
import GrammarInduction.Proofs.Template.Generality
import GrammarInduction.Proofs.Template.Kept
import GrammarInduction.Proofs.Template.Kernel
import GrammarInduction.Proofs.Template.Merging
import GrammarInduction.Proofs.Template.MergingAll
import GrammarInduction.Proofs.Template.Slots
import GrammarInduction.Proofs.Text.Marker
import GrammarInduction.Proofs.Text.Reading
import GrammarInduction.Proofs.Text.Spelling
import GrammarInduction.Proofs.Text.Words
import GrammarInduction.Proofs.Walk.Reach
import GrammarInduction.Proofs.Walk.Search
import GrammarInduction.Proofs.Walk.Sweep
import GrammarInduction.Proofs.Walk.Worklist
import GrammarInduction.Slot
import GrammarInduction.SlotNames
import GrammarInduction.SlotRenaming
import GrammarInduction.SlotValues
import GrammarInduction.SlotValues.Merge
import GrammarInduction.SlotValues.Similarity
import GrammarInduction.Template
import GrammarInduction.Template.Assignment
import GrammarInduction.Template.Cover
import GrammarInduction.Template.Filling
import GrammarInduction.Template.Merge
import GrammarInduction.Text.Blank
import GrammarInduction.Text.Marker
import GrammarInduction.Text.Spacing
import GrammarInduction.Text.Words
import GrammarInduction.Token
import GrammarInduction.Walk
import GrammarInduction.Walk.Search
import GrammarInduction.Walk.Worklist
