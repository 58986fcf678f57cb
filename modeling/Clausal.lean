import Clausal.Files.Directory
import Clausal.Main
import Clausal.Proofs.Composition
import Clausal.Proofs.Disagreement
import Clausal.Proofs.FirstOccurrences
import Clausal.Proofs.UnificationRun
import Clausal.Proofs.MostGeneralUnifier
import Clausal.Proofs.TriangularForm
import Clausal.Proofs.Preorder
import Clausal.Proofs.Enumeration
import Clausal.Proofs.Semantics
import Clausal.Proofs.ParamodulationSoundness
import Clausal.Proofs.Tautologies
import Clausal.Proofs.Lifting
import Clausal.Proofs.ParamodulationCompleteness
import Clausal.Proofs.Factors
import Clausal.Proofs.InferenceSteps
import Clausal.Proofs.InferenceFailures
import Clausal.Proofs.Words
import Clausal.Proofs.NumberedText
import Clausal.Proofs.Statements
import Clausal.Proofs.WellSpelled
import Clausal.Proofs.Parsing
import Clausal.Proofs.Signatures
import Clausal.Proofs.BuiltSignatures
import Clausal.Proofs.Renaming
import Clausal.Proofs.FreshCopies
import Clausal.Proofs.LiteralSets
import Clausal.Proofs.Countermodels
import Clausal.Proofs.OverSignature
import Clausal.Proofs.DerivedClauses
import Clausal.Proofs.Inclusions
import Clausal.Proofs.ScopeInvariants
import Clausal.Proofs.ReadingInvariant
import Clausal.Proofs.VariableBlocks
import Clausal.Proofs.EqualityAtoms
import Clausal.Proofs.CommandLineRuns
import Clausal.Proofs.OutputSoundness
import Clausal.Proofs.Sessions
import Clausal.Proofs.PrintedClauses
import Clausal.Proofs.RoundTrip
import Clausal.Proofs.NegatedEquations
import Clausal.Proofs.Replacement
import Clausal.Proofs.Variants
import Clausal.Proofs.PlainClauses
import Clausal.Proofs.Translation
import Clausal.Proofs.Lookahead
import Clausal.Proofs.Suffixes
import Clausal.Proofs.Concatenation
import Clausal.Proofs.Registration
import Clausal.Proofs.Refusals
import Clausal.Proofs.Interning
import Clausal.Proofs.Equivariance
import Clausal.Proofs.Splicing
import Clausal.Proofs.ParamodulationOutcomes
import Clausal.Proofs.UnorderedEnumeration
import Clausal.Proofs.EqualClauses
import Clausal.Proofs.VariableNames
