import ClassContract.Logging
import ClassContract.Report.Exchange
import ClassContract.Trace.Check
import ClassContract.Proofs.Distinct
import ClassContract.Proofs.Scope
import ClassContract.Proofs.Findings
import ClassContract.Proofs.PerName
import ClassContract.Proofs.Silence
import ClassContract.Proofs.Contract
import ClassContract.Proofs.Deferral
import ClassContract.Proofs.Chain
import ClassContract.Proofs.Obligation
import ClassContract.Proofs.Assignability
import ClassContract.Proofs.Interchange
import ClassContract.Proofs.Symmetry
import ClassContract.Proofs.Unions
import ClassContract.Proofs.Pending
import ClassContract.Proofs.Readonly
import ClassContract.Proofs.Interposed
import ClassContract.Proofs.Meetable
import ClassContract.Proofs.Independence
import ClassContract.Proofs.Reordering
import ClassContract.Proofs.OnDemand
import ClassContract.Proofs.Shortest
import ClassContract.Proofs.Numerals
import ClassContract.Proofs.Tokens
import ClassContract.Proofs.Documents
import ClassContract.Proofs.Decoding
import ClassContract.Proofs.TypeFormat
import ClassContract.Proofs.ClassFormat
import ClassContract.Proofs.ScopeTable
import ClassContract.Proofs.Provenance
import ClassContract.Proofs.ReportFormat
import ClassContract.Proofs.Grammar
import ClassContract.Proofs.Lexing
import ClassContract.Proofs.Commas
import ClassContract.Proofs.Comments
import ClassContract.Proofs.Dialect
import ClassContract.Proofs.NormalForm
import ClassContract.Proofs.MemberOrder
import ClassContract.Proofs.ReportOrder
import ClassContract.Proofs.Locality
import ClassContract.Proofs.Outcome
import ClassContract.Proofs.DeclarationOrder
import ClassContract.Proofs.Grounds
import ClassContract.Proofs.HandedDown
import ClassContract.Proofs.CallerCopy
import ClassContract.Proofs.Halves
import ClassContract.Proofs.Precedence
import ClassContract.Proofs.PlainText
import ClassContract.Proofs.Display
import ClassContract.Proofs.Lines
import ClassContract.Proofs.Collecting
import ClassContract.Proofs.Reraised
