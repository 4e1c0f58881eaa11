import Interpolants.Decoding.Decode
import Interpolants.Encoding
import Interpolants.Solver.Session

/-!
# Interpolants — interpolation queries

A query asserts some formulas under the names `phi_1`, `phi_2`, …, checks that they contradict each
other, and asks for one interpolant between every two neighbours: it follows from the formulas
before it, contradicts those behind, and mentions only variables of both.
-/

namespace Interpolants

/-- Why a query gives no answer. -/
inductive QueryError where
  | encode (e : EncodeError)
  | decode (e : DecodeError)
  | solver (e : SolverError)
deriving DecidableEq

/-- How queries are made: in which logic, and where sessions are recorded. -/
structure QuerySettings where
  logic : String := "QF_LIA"
  folder : Option String := none

/-- A step of a query, which may fail and leaves a session either way. -/
abbrev Query (σ α : Type) : Type :=
  ExceptT QueryError (StateM σ) α

namespace Query

/-- The name under which the formula at an index is asserted. -/
def label (index : Nat) : String :=
  "phi_" ++ (index + 1).repr

/-- A step of the session, as one of the query. -/
def ofStep {σ α : Type} (step : Step σ α) : Query σ α :=
  ExceptT.adapt QueryError.solver step

section

variable {σ : Type} [Session σ]

/-- Sends commands in turn. -/
def sendAll (commands : List Sexp) : Query σ Unit :=
  modify fun s => commands.foldl Session.send s

/-- Asserts a formula under its label and gives the variables declared after that. The declarations
it needs are sent first, also where the formula is refused. -/
def assertFormula (declared : Registry) (index : Nat) (formula : Expr) : Query σ Registry := do
  let (result, enc) := Encoder.run ⟨declared, []⟩ formula.encodeAssertion
  sendAll enc.sent
  match result with
  | .error e => throw (.encode e)
  | .ok term =>
    modify (Session.comment · (label index ++ ": " ++ formula.render))
    sendAll [Command.assertNamed term (label index)]
    return enc.declared

/-- Asserts formulas under the labels from an index on. -/
def assertAll : Registry → Nat → List Expr → Query σ Registry
  | declared, _, [] => return declared
  | declared, index, formula :: more => do
    assertAll (← assertFormula declared index formula) (index + 1) more

/-- Decodes the texts of terms, all in one session, and stops at the first that fails. -/
def decodeAll (declared : Registry) (texts : List String) : Query σ (List Expr) :=
  (decodeEach declared texts).mapM fun
    | .ok e => return e
    | .error e => throw (.decode e)

/-- The interpolants of some formulas, or nothing where they are satisfiable or the solver gives
up. -/
def interpolants (settings : QuerySettings) (formulas : List Expr) :
    Query σ (Option (List Expr)) := do
  ofStep (Session.launch settings.folder)
  sendAll [Command.setOption "produce-interpolants" "true", Command.setLogic settings.logic]
  let declared ← assertAll .empty 0 formulas
  match ← ofStep Session.checkSat with
  | .sat | .unknown _ => return none
  | .unsat =>
    let texts ← ofStep (Session.interpolants ((List.range formulas.length).map label))
    return some (← decodeAll declared texts)

end

/-- Runs a query on a session that has not been launched yet. -/
def run {σ α : Type} (query : Query σ α) (s : σ) : Except QueryError α × σ :=
  StateT.run (ExceptT.run query) s

end Query

end Interpolants
