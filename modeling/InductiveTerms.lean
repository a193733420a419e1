import InductiveTerms.Term.Equality
import InductiveTerms.Term.Printer
import InductiveTerms.Term.References
import InductiveTerms.Term.Normalize
import InductiveTerms.Term.Refresh
import InductiveTerms.Term.Reduction
import InductiveTerms.Typing.Check
import InductiveTerms.Environment.Global
import InductiveTerms.Specialization.Rewrite
import InductiveTerms.Config.File
import InductiveTerms.Term.Record
import InductiveTerms.Proofs.Children
import InductiveTerms.Proofs.Variables
import InductiveTerms.Proofs.Traversal
import InductiveTerms.Proofs.Display
import InductiveTerms.Proofs.Substitution
import InductiveTerms.Proofs.References
import InductiveTerms.Proofs.Stack
import InductiveTerms.Proofs.TypeScope
import InductiveTerms.Proofs.Uses
import InductiveTerms.Proofs.Search
import InductiveTerms.Proofs.ClosureSolution
import InductiveTerms.Proofs.Coverage
import InductiveTerms.Proofs.Conversion
import InductiveTerms.Proofs.Rewriting
import InductiveTerms.Proofs.Simulation
import InductiveTerms.Proofs.Replacement
import InductiveTerms.Proofs.SpecializedBundle
import InductiveTerms.Proofs.Preservation
import InductiveTerms.Proofs.Grouping
import InductiveTerms.Proofs.Window
import InductiveTerms.Proofs.Checking
import InductiveTerms.Proofs.Unfolding
import InductiveTerms.Proofs.Weakening
import InductiveTerms.Proofs.Nodes
import InductiveTerms.Proofs.Merging
import InductiveTerms.Proofs.Regrouping
import InductiveTerms.Proofs.Normalization
import InductiveTerms.Proofs.Selections
import InductiveTerms.Proofs.Coupling
import InductiveTerms.Proofs.SideBySide
import InductiveTerms.Proofs.Sharing
import InductiveTerms.Proofs.Memoization
import InductiveTerms.Proofs.StackRefinement
import InductiveTerms.Proofs.Failures
import InductiveTerms.Proofs.ClosureSlots
import InductiveTerms.Proofs.Lookups
import InductiveTerms.Proofs.Residuals
import InductiveTerms.Proofs.SpecializedScope
import InductiveTerms.Proofs.Termination
import InductiveTerms.Proofs.Identity
import InductiveTerms.Proofs.Shadowing
import InductiveTerms.Proofs.Canonical
import InductiveTerms.Proofs.Opening
import InductiveTerms.Proofs.Lockstep
import InductiveTerms.Proofs.Renaming
import InductiveTerms.Proofs.RenamedBundles
import InductiveTerms.Proofs.Names
import InductiveTerms.Proofs.Enclosing
import InductiveTerms.Proofs.Entries
import InductiveTerms.Proofs.Extension
import InductiveTerms.Proofs.Reducts
import InductiveTerms.Proofs.SpecializedParts
import InductiveTerms.Proofs.Itinerary
import InductiveTerms.Proofs.Recording
import InductiveTerms.Proofs.Readers
import InductiveTerms.Proofs.Printable
import InductiveTerms.Proofs.Readback
import InductiveTerms.Proofs.IndexAlgebra
import InductiveTerms.Proofs.FreeVariables
import InductiveTerms.Proofs.NormalizedIndices
import InductiveTerms.Proofs.Reassociation
import InductiveTerms.Proofs.Origins
import InductiveTerms.Proofs.DirectCalls
import InductiveTerms.Proofs.Presentation
import InductiveTerms.Proofs.BinderNames
import InductiveTerms.Proofs.HeadReduction
import InductiveTerms.Proofs.Lowering
import InductiveTerms.Proofs.Outside
import InductiveTerms.Proofs.Signatures
import InductiveTerms.Proofs.Versions
import InductiveTerms.Proofs.Composition
import InductiveTerms.Proofs.Silence
import InductiveTerms.Proofs.Reports
import InductiveTerms.Proofs.TextReplacement
import InductiveTerms.Proofs.Templates
import InductiveTerms.Proofs.Saturation
