import Interpolants.Decoding.Decode
import Interpolants.Encoding
import Interpolants.Expr.Parser
import Interpolants.Expr.Printer
import Interpolants.Expr.Valuations
import Interpolants.Query
import Interpolants.Sexp.Order
import Interpolants.Sexp.Parser
import Interpolants.Sexp.Printer
import Interpolants.Solver.Location
import Interpolants.Solver.Connection
import Interpolants.Solver.Recording
import Interpolants.Proofs.Decoding.Meaning
import Interpolants.Proofs.Decoding.Scoping
import Interpolants.Proofs.Encoding.Meaning
import Interpolants.Proofs.Encoding.RoundTrip
import Interpolants.Proofs.Encoding.Bounds
import Interpolants.Proofs.Encoding.Encounters
import Interpolants.Proofs.Encoding.Session
import Interpolants.Proofs.Query.Course
import Interpolants.Proofs.Query.Scope
import Interpolants.Proofs.Sexp.Narrowing
import Interpolants.Proofs.Smt.Theory
import Interpolants.Proofs.Decoding.Batch
import Interpolants.Proofs.Query.Assignments
import Interpolants.Proofs.Query.Asserted
import Interpolants.Proofs.Query.Soundness
import Interpolants.Proofs.Expr.Reprint
import Interpolants.Proofs.Decoding.Image
import Interpolants.Proofs.Query.Answer
import Interpolants.Proofs.Query.Symbols
import Interpolants.Proofs.Solver.Dialogue
import Interpolants.Proofs.Solver.Reading
import Interpolants.Proofs.Solver.Framing
import Interpolants.Proofs.Solver.Faults
import Interpolants.Proofs.Decoding.Expansion
import Interpolants.Proofs.Layout.Independence
import Interpolants.Proofs.Layout.Opacity
import Interpolants.Proofs.Layout.Hygiene
import Interpolants.Proofs.Encoding.SendBack
import Interpolants.Proofs.History.Apart
import Interpolants.Proofs.History.Parts
import Interpolants.Proofs.History.Alike
import Interpolants.Proofs.History.Sessions
import Interpolants.Proofs.Truncation.Scanned
import Interpolants.Proofs.Truncation.Passage
import Interpolants.Proofs.Truncation.Refusal
import Interpolants.Proofs.Offsets.Slice
import Interpolants.Proofs.Offsets.Cursor
import Interpolants.Proofs.Offsets.Step
import Interpolants.Proofs.Offsets.Term
import Interpolants.Proofs.Offsets.Block
import Interpolants.Proofs.Offsets.Marks
import Interpolants.Proofs.Offsets.Round
import Interpolants.Proofs.Sexp.Reading
import Interpolants.Proofs.Sexp.Reprint
import Interpolants.Proofs.Sexp.Survival
import Interpolants.Proofs.Encoding.Names
import Interpolants.Proofs.Query.Sorting
import Interpolants.Proofs.Expr.Exactness
import Interpolants.Proofs.Solver.Delivery
import Interpolants.Proofs.Encoding.Checks
import Interpolants.Proofs.Encoding.Order
import Interpolants.Proofs.Expr.Chain
import Interpolants.Proofs.Expr.Image
import Interpolants.Proofs.Solver.Replay
import Interpolants.Proofs.Solver.Verdict
import Interpolants.Proofs.Solver.Annotation
import Interpolants.Proofs.Expr.Overflow
import Interpolants.Proofs.Expr.Enumeration
import Interpolants.Proofs.Expr.Agreement
import Interpolants.Proofs.Solver.Unrecorded
import Interpolants.Proofs.Offsets.Extent
