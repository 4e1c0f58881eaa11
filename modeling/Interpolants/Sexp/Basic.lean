/-!
# Interpolants — s-expressions

Everything exchanged with a solver is an s-expression. Comments are among them so that a transcript
can be annotated.
-/

namespace Interpolants

/-- A numeral or a symbol. Strings are symbols too. -/
inductive Atom where
  | numeral (n : UInt64)
  | symbol (s : String)
deriving DecidableEq, Repr

/-- An s-expression. -/
inductive Sexp where
  | atom (a : Atom)
  | comment (text : String)
  | list (items : List Sexp)

namespace Sexp

def symbol (s : String) : Sexp :=
  .atom (.symbol s)

def numeral (n : UInt64) : Sexp :=
  .atom (.numeral n)

/-- The application of a head symbol to arguments: the form of every command and of most terms. -/
def app (head : String) (args : List Sexp) : Sexp :=
  .list (symbol head :: args)

/-- A term with a name attached to it. -/
def named (term : Sexp) (name : String) : Sexp :=
  app "!" [term, symbol ":named", symbol name]

/-- The elements of a list. -/
def items? : Sexp → Option (List Sexp)
  | .list items => some items
  | _ => none

/-- The text of a symbol. -/
def symbol? : Sexp → Option String
  | .atom (.symbol s) => some s
  | _ => none

/-- The head symbol and the arguments of an application. -/
def app? : Sexp → Option (String × List Sexp)
  | .list (.atom (.symbol head) :: args) => some (head, args)
  | _ => none

theorem app?_app (head : String) (args : List Sexp) : (app head args).app? = some (head, args) :=
  rfl

mutual

/-- Whether two s-expressions are the same. -/
def decEq : (a b : Sexp) → Decidable (a = b)
  | .atom a, .atom b => decidable_of_iff (a = b) (by simp)
  | .comment a, .comment b => decidable_of_iff (a = b) (by simp)
  | .list as, .list bs =>
    match decEqItems as bs with
    | isTrue h => isTrue (by rw [h])
    | isFalse h => isFalse (by simpa using h)
  | .atom _, .comment _ | .atom _, .list _ | .comment _, .atom _ | .comment _, .list _
  | .list _, .atom _ | .list _, .comment _ => isFalse (by simp)

/-- Whether two lists of s-expressions are the same. -/
def decEqItems : (as bs : List Sexp) → Decidable (as = bs)
  | [], [] => isTrue rfl
  | [], _ :: _ | _ :: _, [] => isFalse (by simp)
  | a :: as, b :: bs =>
    match decEq a b, decEqItems as bs with
    | isTrue h, isTrue hs => isTrue (by rw [h, hs])
    | isFalse h, _ => isFalse fun e => h (List.cons.inj e).1
    | _, isFalse hs => isFalse fun e => hs (List.cons.inj e).2

end

instance : DecidableEq Sexp :=
  decEq

end Sexp

end Interpolants
