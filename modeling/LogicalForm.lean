import LogicalForm.Main
import LogicalForm.Form.Termination
import LogicalForm.Proofs.Calls
import LogicalForm.Proofs.Halting
import LogicalForm.Proofs.Renaming
import LogicalForm.Proofs.Capture
import LogicalForm.Proofs.Scoped
import LogicalForm.Proofs.Reference
import LogicalForm.Proofs.Hygiene
import LogicalForm.Proofs.Correctness
import LogicalForm.Proofs.HeadVariable
import LogicalForm.Proofs.Relocation
import LogicalForm.Proofs.Renumbering
import LogicalForm.Proofs.AlphaRenaming
import LogicalForm.Proofs.TypePreservation
import LogicalForm.Proofs.PlainSession
import LogicalForm.Proofs.Representation
import LogicalForm.Proofs.TypeGrammar
import LogicalForm.Proofs.TypeNotation
import LogicalForm.Proofs.TypeDiagnosis
import LogicalForm.Proofs.Fields
import LogicalForm.Proofs.SignatureLines
import LogicalForm.Proofs.Shifting
import LogicalForm.Proofs.Lexing
import LogicalForm.Proofs.SexpGrammar
import LogicalForm.Proofs.Forest
import LogicalForm.Proofs.Balance
import LogicalForm.Proofs.RoundTrip
import LogicalForm.Proofs.TextOrder
import LogicalForm.Proofs.Reached
import LogicalForm.Proofs.Notation
import LogicalForm.Proofs.PairedRun
import LogicalForm.Proofs.Placeholder
import LogicalForm.Proofs.Plug
import LogicalForm.Proofs.ResultContext
import LogicalForm.Proofs.Composition
import LogicalForm.Proofs.FullTyping
import LogicalForm.Proofs.Currying
import LogicalForm.Proofs.Progress
import LogicalForm.Proofs.TypedApplication
import LogicalForm.Proofs.CompositionGate
import LogicalForm.Proofs.LexicalTyping
import LogicalForm.Proofs.Redexes
