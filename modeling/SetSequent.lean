import SetSequent.Draft
import SetSequent.Main
import SetSequent.Model.Countermodel
import SetSequent.Proofs.Completeness
import SetSequent.Proofs.Soundness
import SetSequent.Solver.Encoding
import SetSequent.Proofs.ConstructiveValue
import SetSequent.Proofs.ConstructiveSearch
import SetSequent.Proofs.ConstructiveSoundness
import SetSequent.Proofs.CheckedTrees
import SetSequent.Proofs.Scanning
import SetSequent.Proofs.Cuts
import SetSequent.Proofs.WrittenTokens
import SetSequent.Proofs.ReadTerms
import SetSequent.Proofs.ReadAtoms
import SetSequent.Proofs.RoundTrip
import SetSequent.Proofs.Grammar
import SetSequent.Proofs.Precedence
import SetSequent.Proofs.PreparedForm
import SetSequent.Proofs.InterimNotes
import SetSequent.Proofs.SplitBudget
import SetSequent.Proofs.Noninterference
import SetSequent.Proofs.WrittenProblems
import SetSequent.Proofs.OpaqueQuantifiers
import SetSequent.Proofs.ExprMeaning
import SetSequent.Proofs.EncodedMeaning
import SetSequent.Proofs.ExactInstances
import SetSequent.Proofs.UnfoldedForm
import SetSequent.Proofs.InstanceFixpoint
import SetSequent.Proofs.ExactElimination
import SetSequent.Proofs.FoldedConstants
import SetSequent.Proofs.NegationNormalForm
import SetSequent.Proofs.NameDependence
import SetSequent.Proofs.Drafts
import SetSequent.Proofs.Replacement
import SetSequent.Proofs.CompoundReasons
import SetSequent.Proofs.InjectedAtoms
import SetSequent.Proofs.CommutingElimination
import SetSequent.Proofs.ExactEnumeration
import SetSequent.Proofs.LosslessScanning
import SetSequent.Proofs.SettledBranches
import SetSequent.Proofs.SymbolTables
import SetSequent.Proofs.SymbolMeaning
import SetSequent.Proofs.HypothesisNames
