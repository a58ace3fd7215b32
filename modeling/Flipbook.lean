import Flipbook.Expr.Compile
import Flipbook.Expr.Run
import Flipbook.Expr.Report
import Flipbook.Json.Reader
import Flipbook.Json.Writer
import Flipbook.Json.Schema
import Flipbook.Machine.Name
import Flipbook.Logged
import Flipbook.Machine.Description
import Flipbook.Machine.Build
import Flipbook.Machine.Load
import Flipbook.Expr.Document
import Flipbook.Machine.Engine
import Flipbook.Sample.Catalogue
import Flipbook.Machine.Layout
import Flipbook.Proofs.Expr.Grammar
import Flipbook.Proofs.Machine.Guarded
import Flipbook.Proofs.Machine.RoundTrip
import Flipbook.Proofs.Expr.Execution
import Flipbook.Proofs.Machine.Stepping
import Flipbook.Proofs.Machine.Table
import Flipbook.Proofs.Machine.Calls
import Flipbook.Proofs.Machine.Solo
import Flipbook.Proofs.Machine.Walks
import Flipbook.Proofs.Machine.Evaluations
import Flipbook.Proofs.Expr.Replacing
import Flipbook.Proofs.Machine.Requests
import Flipbook.Proofs.Machine.SharedStack
import Flipbook.Proofs.Machine.Noninterference
import Flipbook.Proofs.Machine.Resolution
import Flipbook.Proofs.Expr.Constants
import Flipbook.Proofs.Expr.Placement
import Flipbook.Proofs.Machine.Deferral
import Flipbook.Proofs.Machine.Frames
import Flipbook.Proofs.Machine.Elapsed
import Flipbook.Proofs.Machine.Weighing
import Flipbook.Proofs.Machine.FrameLimit
import Flipbook.Proofs.Number.Arithmetic
import Flipbook.Proofs.Machine.Overflow
import Flipbook.Proofs.Machine.Chaining
import Flipbook.Proofs.Machine.Lookups
import Flipbook.Proofs.Machine.Truncation
import Flipbook.Proofs.Machine.Acceptance
import Flipbook.Proofs.Expr.Bytewise
import Flipbook.Proofs.Expr.Settled
import Flipbook.Proofs.Expr.Coverage
import Flipbook.Proofs.Expr.Endings
import Flipbook.Proofs.Expr.Blocks
import Flipbook.Proofs.Expr.Diagnostics
import Flipbook.Proofs.Machine.Saving
import Flipbook.Proofs.Expr.Reordering
import Flipbook.Proofs.Machine.Fields
