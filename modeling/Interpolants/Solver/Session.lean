import Interpolants.Script.Command
import Interpolants.Solver.Answer

/-!
# Interpolants — sessions

A session takes commands and gives answers to some of them. Commands without an answer cannot fail:
a failure to deliver them shows at the next answer. A session is kept also where a step fails.
-/

namespace Interpolants

/-- A step of a session that may fail and leaves a session either way. -/
abbrev Step (σ α : Type) : Type :=
  ExceptT SolverError (StateM σ) α

/-- Runs a step. -/
def Step.runOn {σ α : Type} (step : Step σ α) (s : σ) : Except SolverError α × σ :=
  StateT.run (ExceptT.run step) s

/-- What can be asked of a solver session. -/
class Session (σ : Type) where
  /-- Starts the session, recording it in the folder if one is given. -/
  launch : Option String → Step σ Unit
  /-- Sends a command without an answer. -/
  send : σ → Sexp → σ
  /-- Annotates the session's record. -/
  comment : σ → String → σ
  checkSat : Step σ SatAnswer
  /-- Asks for the interpolants between some names' assertions, as the texts of terms. -/
  interpolants : List String → Step σ (List String)

end Interpolants
