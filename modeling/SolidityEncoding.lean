import SolidityEncoding.Encoding.Place
import SolidityEncoding.Exec
import SolidityEncoding.Json.Reader
import SolidityEncoding.Main
import SolidityEncoding.Typing
import SolidityEncoding.Proofs.Fallible
import SolidityEncoding.Proofs.Word.SmtLib
import SolidityEncoding.Proofs.Range
import SolidityEncoding.Proofs.Arithmetic.Modular
import SolidityEncoding.Proofs.Arithmetic.Bitvector
import SolidityEncoding.Proofs.Value.Typed
import SolidityEncoding.Proofs.Typing.Soundness
import SolidityEncoding.Proofs.Conversion.Cast
import SolidityEncoding.Proofs.Conversion.Bytes
import SolidityEncoding.Proofs.Simulation
import SolidityEncoding.Proofs.Word.Bits
import SolidityEncoding.Proofs.Value.Order
import SolidityEncoding.Proofs.Value.TotalMap
import SolidityEncoding.Proofs.Value.WellFormed
import SolidityEncoding.Proofs.Value.Writes
import SolidityEncoding.Proofs.Execution
import SolidityEncoding.Proofs.Transfer.Procedures
import SolidityEncoding.Proofs.Transfer.Outcomes
import SolidityEncoding.Proofs.Transfer.Effect
import SolidityEncoding.Proofs.Transfer.Conservation
import SolidityEncoding.Proofs.Transfer.Balances
import SolidityEncoding.Proofs.Transfer.Agreement
import SolidityEncoding.Proofs.Transfer.Attempts
import SolidityEncoding.Proofs.Typing.Execution
import SolidityEncoding.Proofs.Typing.Conversion
import SolidityEncoding.Proofs.Expr.Unambiguous
import SolidityEncoding.Proofs.Conversion.Meaning
import SolidityEncoding.Proofs.Conversion.Implicit
import SolidityEncoding.Proofs.Conversion.RoundTrip
import SolidityEncoding.Proofs.Functions.Application
import SolidityEncoding.Proofs.Functions.Registry
import SolidityEncoding.Proofs.Functions.Program
import SolidityEncoding.Proofs.Functions.Transcript
import SolidityEncoding.Proofs.Diagnostics
import SolidityEncoding.Proofs.Value.Nested
import SolidityEncoding.Proofs.Place
import SolidityEncoding.Proofs.Composition
import SolidityEncoding.Proofs.Frame
import SolidityEncoding.Proofs.Arithmetic.Division
import SolidityEncoding.Proofs.Arithmetic.Power
import SolidityEncoding.Proofs.Conversion.Acceptance
import SolidityEncoding.Proofs.Stmt.Attributes
import SolidityEncoding.Proofs.Text.Lines
import SolidityEncoding.Proofs.Stmt.Comments
import SolidityEncoding.Proofs.Source.TypeName
import SolidityEncoding.Proofs.Source.Location
import SolidityEncoding.Proofs.Conversion.Reduction
import SolidityEncoding.Proofs.Value.Sorting
