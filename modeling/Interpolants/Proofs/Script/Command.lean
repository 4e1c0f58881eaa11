import Interpolants.Proofs.Smt.Semantics
import Interpolants.Script.Command

/-!
# Interpolants — reading commands

What a command does to a session, read off the command alone: which symbol it declares, what it
asserts and under which name. Everything that is proved about the commands sent to a session is
stated with these readers.
-/

namespace Interpolants

namespace Command

/-- The symbol that a command declares, and its sort. -/
def declared? : Sexp → Option (String × String)
  | .list [.atom (.symbol "declare-fun"), .atom (.symbol name), .list [], .atom (.symbol sort)] =>
    some (name, sort)
  | _ => none

/-- The term that a command asserts under a name, and the name. -/
def named? : Sexp → Option (Sexp × String)
  | .list [.atom (.symbol "assert"),
      .list [.atom (.symbol "!"), t, .atom (.symbol ":named"), .atom (.symbol name)]] =>
    some (t, name)
  | _ => none

/-- The term that a command asserts without a name. -/
def unnamed? (command : Sexp) : Option Sexp :=
  match named? command, command with
  | none, .list [.atom (.symbol "assert"), t] => some t
  | _, _ => none

/-- The symbol that a declaration or the assertion of a bound is about. -/
def subject? : Sexp → Option String
  | .list [.atom (.symbol "declare-fun"), .atom (.symbol name), _, _]
  | .list [.atom (.symbol "assert"), .list [_, .atom (.symbol name), _]] => some name
  | _ => none

@[simp] theorem declared?_declareFun (name sort : String) :
    declared? (declareFun name sort) = some (name, sort) := rfl

@[simp] theorem unnamed?_declareFun (name sort : String) :
    unnamed? (declareFun name sort) = none := rfl

@[simp] theorem named?_declareFun (name sort : String) : named? (declareFun name sort) = none := rfl

@[simp] theorem named?_assertNamed (t : Sexp) (name : String) :
    named? (assertNamed t name) = some (t, name) := rfl

@[simp] theorem unnamed?_assertNamed (t : Sexp) (name : String) :
    unnamed? (assertNamed t name) = none := rfl

@[simp] theorem declared?_assertTerm (t : Sexp) : declared? (assertTerm t) = none := rfl

@[simp] theorem declared?_assertNamed (t : Sexp) (name : String) :
    declared? (assertNamed t name) = none := rfl

/-- Whether an assertion without a name is true. Other commands ask for nothing. -/
def Satisfied (I : Interpretation Smt.Value) (env : Env Smt.Value) (command : Sexp) : Prop :=
  ∀ t, unnamed? command = some t → t.interpret I env = some (.bool true)

end Command

end Interpolants
