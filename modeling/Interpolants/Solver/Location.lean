import Interpolants.Solver.Invocation
import Interpolants.Solver.Place
import Interpolants.Text.Path
import Interpolants.Text.Uppercase

/-!
# Interpolants — finding solvers and record folders

Programs and the solver's jar are found through environment variables. Records of named queries go
to a folder of the project each.
-/

namespace Interpolants

open Text

/-- The environment variables, each a name and a value. -/
abbrev Environment : Type :=
  List (String × String)

/-- The value of a variable. An environment is kept as lines of a name, an equals sign and a value,
and the first line that starts with the wanted name and an equals sign counts, wherever its own name
ends. -/
def Environment.value? (env : Environment) (name : String) : Option String :=
  env.findSome? fun (known, value) =>
    ((name ++ "=").toList.isPrefixOf? (known ++ "=" ++ value).toList).map String.ofList

namespace Location

/-- The variable that names the file to run for a program. -/
def programVariable (program : String) : String :=
  String.ofList (upper program.toList) ++ "_BIN"

/-- What to run for a program: what its variable says, or else its name. -/
def programPath (env : Environment) (program : String) : String :=
  (env.value? (programVariable program)).getD program

/-- The jar of SMTInterpol: the one that its variable names, if it exists. -/
def jar? (env : Environment) : Option String :=
  (env.value? "SMTINTERPOL_JAR").filter fun path => (Place.ofPath path).isOk

/-- The settings for the SMTInterpol found on this machine. -/
def smtInterpol? (env : Environment) : Option SmtInterpol :=
  (jar? env).map fun jar => { java := programPath env "java", jar := jar }

/-- The folder for the records of a named query, relative to the project. -/
def recordFolder (query : String) : String :=
  String.ofList (within ".interpolation-log".toList (withoutExtension query.toList))

end Location

end Interpolants
