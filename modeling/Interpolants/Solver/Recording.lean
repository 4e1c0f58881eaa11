import Interpolants.Sexp.Printer
import Interpolants.Solver.Session

/-!
# Interpolants — sessions with prepared answers

A `Recording` notes everything that it is sent, as text, and answers as told beforehand.
-/

namespace Interpolants

/-- The steps of a session that can be made to fail. -/
inductive Call where
  | launch | checkSat | interpolants
deriving DecidableEq, Repr

/-- A session with prepared answers, and what it was sent so far. -/
structure Recording where
  sat : SatAnswer
  terms : List String
  failure : Option (Call × SolverError)
  log : List String

namespace Recording

/-- Notes a line. -/
def note (r : Recording) (line : String) : Recording :=
  { r with log := r.log ++ [line] }

/-- Answers a call unless it is the one that fails. -/
def answer {α : Type} (call : Call) (a : α) : Step Recording α := do
  match (← get).failure with
  | some (failing, error) => if failing = call then throw error else return a
  | none => return a

instance : Session Recording where
  launch folder := do
    match folder with
    | some path => modify (·.note ("tee " ++ path))
    | none => pure ()
    answer .launch ()
  send r command := r.note command.render
  comment r text := r.note ("; " ++ text)
  checkSat := do
    modify (·.note Command.checkSat.render)
    answer .checkSat (← get).sat
  interpolants names := do
    modify (·.note (Command.getInterpolants names).render)
    answer .interpolants (← get).terms

end Recording

end Interpolants
