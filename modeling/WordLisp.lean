import WordLisp.Abnormal
import WordLisp.Main
import WordLisp.Proofs.Compiler.Atomicity
import WordLisp.Proofs.Compiler.Layout
import WordLisp.Proofs.Compiler.StaticRules
import WordLisp.Proofs.Machine.Bounds
import WordLisp.Proofs.Machine.Room
import WordLisp.Proofs.Memory.Flat
import WordLisp.Proofs.Node.Boundary
import WordLisp.Proofs.Node.Printing
import WordLisp.Proofs.Source.Layout
import WordLisp.Proofs.Session.Incremental
import WordLisp.Session.Completion
import WordLisp.Wrapper.File
import WordLisp.Proofs.Session.Lasting
import WordLisp.Proofs.Node.Continuation
import WordLisp.Proofs.Session.Interactive
import WordLisp.Proofs.Memory.Guarded
import WordLisp.Proofs.Machine.Guarded
import WordLisp.Proofs.Node.Unterminated
import WordLisp.Proofs.Session.AnyOrder
import WordLisp.Proofs.Session.Entering
import WordLisp.Proofs.Machine.Polling
import WordLisp.Proofs.Text.Encoding
import WordLisp.Proofs.Session.Completing
import WordLisp.Proofs.Source.Failing
import WordLisp.Proofs.Node.Outline
import WordLisp.Proofs.Node.Located
import WordLisp.Proofs.Log.Lines
import WordLisp.Proofs.Output.Combined
import WordLisp.Proofs.Compiler.Emitted
import WordLisp.Proofs.Session.Dumping
import WordLisp.Proofs.Log.Calls
import WordLisp.Proofs.Memory.Table
import WordLisp.Proofs.Memory.Extent
import WordLisp.Proofs.Machine.Division
import WordLisp.Proofs.Wrapper.Parameters
