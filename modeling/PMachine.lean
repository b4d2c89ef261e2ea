import PMachine.Command
import PMachine.Main
import PMachine.Proofs.Machine.Call
import PMachine.Proofs.Program.Overlap
import PMachine.Proofs.Machine.Rounds
import PMachine.Proofs.Machine.Stack
import PMachine.Proofs.Program.Meaning
import PMachine.Proofs.Machine.Observed
import PMachine.Proofs.Cell
import PMachine.Proofs.Machine.Policy
import PMachine.Proofs.Machine.Apart
import PMachine.Proofs.Machine.Bounded
import PMachine.Proofs.Machine.Scope
import PMachine.Proofs.Expression
import PMachine.Proofs.Machine.Evaluation
import PMachine.Proofs.TextInput
import PMachine.Proofs.Program.Locality
import PMachine.Proofs.Label.Calls
import PMachine.Proofs.Program.Comments
import PMachine.Proofs.Machine.Integers
import PMachine.Proofs.Machine.Exact
import PMachine.Proofs.Machine.Operands
import PMachine.Proofs.Machine.Blocks
import PMachine.Proofs.Machine.Frame
import PMachine.Proofs.Machine.BlockOrder
import PMachine.Proofs.Machine.Arithmetic
import PMachine.Proofs.Statement.Atomic
import PMachine.Proofs.Statement.ReadBack
import PMachine.Proofs.Statement.Trailing
import PMachine.Proofs.Machine.Boot
import PMachine.Proofs.Machine.TopOnly
import PMachine.Proofs.Machine.FreshFrame
import PMachine.Proofs.Machine.BlockCopy
import PMachine.Proofs.Machine.Heap
import PMachine.Proofs.Machine.Output
import PMachine.Proofs.Program.Strings
import PMachine.Proofs.Statement.SetLiteral
import PMachine.Proofs.SetExpression
import PMachine.Proofs.Comparison
import PMachine.Proofs.TextInput.Failure
import PMachine.Proofs.Machine.Reals
