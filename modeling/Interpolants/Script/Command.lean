import Interpolants.Sexp.Basic

/-!
# Interpolants — solver commands

The SMT-LIB commands that a session is made of. Each is an application.
-/

namespace Interpolants.Command

open Sexp

/-- Sets an option, whose name is written as a keyword. -/
def setOption (name value : String) : Sexp :=
  app "set-option" [symbol (":" ++ name), symbol value]

def setLogic (name : String) : Sexp :=
  app "set-logic" [symbol name]

/-- Declares a constant of a sort. -/
def declareFun (name sort : String) : Sexp :=
  app "declare-fun" [symbol name, .list [], symbol sort]

/-- Asserts a term. -/
def assertTerm (term : Sexp) : Sexp :=
  app "assert" [term]

/-- Asserts a term under a name. -/
def assertNamed (term : Sexp) (name : String) : Sexp :=
  app "assert" [named term name]

def checkSat : Sexp :=
  app "check-sat" []

/-- Asks for the value under a keyword. -/
def getInfo (keyword : String) : Sexp :=
  app "get-info" [symbol keyword]

/-- Asks for the interpolants between the assertions of some names, in their order. -/
def getInterpolants (names : List String) : Sexp :=
  app "get-interpolants" (names.map symbol)

end Interpolants.Command
