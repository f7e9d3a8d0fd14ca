import CanonicalLR.Generator
import CanonicalLR.Item.Validity
import CanonicalLR.Proofs.Automaton.Shape
import CanonicalLR.Proofs.CallHistories
import CanonicalLR.Proofs.Checked.Calls
import CanonicalLR.Proofs.DeclarationOrder
import CanonicalLR.Proofs.DeclaredStart
import CanonicalLR.Proofs.Derivation.Rightmost
import CanonicalLR.Proofs.FirstSets.Beginnings
import CanonicalLR.Proofs.FirstSets.Queries
import CanonicalLR.Proofs.Item.Closure
import CanonicalLR.Proofs.NumberedGrammar.StartProduction
import CanonicalLR.Proofs.Recognizer.Rejection
import CanonicalLR.Proofs.Recognizer.Unambiguity
import CanonicalLR.Proofs.Recognizer.ViablePrefix
import CanonicalLR.Proofs.RuleText.Building
import CanonicalLR.Proofs.RuleText.Collecting
import CanonicalLR.Proofs.RuleText.Reading
import CanonicalLR.Proofs.RuleText.RoundTrip
import CanonicalLR.Proofs.SymbolNames
import CanonicalLR.Proofs.SymbolSet.Operations
import CanonicalLR.Proofs.Table.Justification
import CanonicalLR.Proofs.Table.Settling
import CanonicalLR.Proofs.Text.Parts
import CanonicalLR.Proofs.UnreachableRules
import CanonicalLR.RuleText.Format
import CanonicalLR.RuleText.Printer
import CanonicalLR.RuleText.Reader
