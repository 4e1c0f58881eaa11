/-!
# Interpolants — how a solver is started

A solver is started by a command line and is then sent its options, in the order in which they were
set, so that the last value of an option counts.
-/

namespace Interpolants

/-- A program to launch, its arguments, and the options to send first. -/
structure Invocation where
  program : String
  args : List String := []
  options : List (String × String) := []
deriving DecidableEq, Repr

namespace Invocation

/-- Appends arguments. -/
def withArgs (inv : Invocation) (more : List String) : Invocation :=
  { inv with args := inv.args ++ more }

/-- Sets an option. -/
def withOption (inv : Invocation) (name value : String) : Invocation :=
  { inv with options := inv.options ++ [(name, value)] }

/-- An argument as it is shown: between double quotes if it has a space. -/
def shownArg (arg : String) : String :=
  if arg.toList.contains ' ' then "\"" ++ arg ++ "\"" else arg

/-- The command line as it is shown. -/
def commandLine (inv : Invocation) : String :=
  inv.program ++ " " ++ " ".intercalate (inv.args.map shownArg)

/-- Sets a time limit in milliseconds, if one is given. -/
def withTimeout (inv : Invocation) (limit : Option Nat) : Invocation :=
  match limit with
  | some ms => inv.withOption "timeout" ms.repr
  | none => inv

/-- Sets the random seed. -/
def withSeed (inv : Invocation) (seed : Nat) : Invocation :=
  inv.withOption "random-seed" seed.repr

/-- SMTInterpol comes as a jar, which `java` runs. It is told not to acknowledge commands, since an
acknowledgement would be taken for a reply. -/
def smtInterpol (java jar : String) : Invocation :=
  (({ program := java : Invocation }).withArgs ["-jar", jar, "-q"]).withOption
    "print-success" "false"

end Invocation

/-- The settings of SMTInterpol sessions. The seed is always sent, a time limit only if there is
one. -/
structure SmtInterpol where
  java : String
  jar : String
  timeout : Option Nat := none
  seed : Nat := 0
deriving DecidableEq, Repr

/-- How a session with these settings is started. -/
def SmtInterpol.invocation (settings : SmtInterpol) : Invocation :=
  ((Invocation.smtInterpol settings.java settings.jar).withTimeout settings.timeout).withSeed
    settings.seed

end Interpolants
