import Interpolants.Decoding.Error
import Interpolants.Expr.Basic

/-!
# Interpolants — applying a solver's operators

Which formula an operator's name and its decoded operands stand for. Equality means equivalence
between booleans and equality of integers otherwise.
-/

namespace Interpolants

namespace Expr

/-- The equality of two operands: an equivalence if both are boolean. -/
def equal (l r : Expr) : Expr :=
  if l.ty.isBool && r.ty.isBool then logic .equiv l r else compare .eq l r

/-- The difference of two operands: a negated equivalence if both are boolean. -/
def differ (l r : Expr) : Expr :=
  if l.ty.isBool && r.ty.isBool then negation (logic .equiv l r) else compare .ne l r

/-- Each operand paired with its right neighbour. -/
def neighbours (es : List Expr) : List (Expr × Expr) :=
  es.zip (es.drop 1)

/-- Each operand paired with every later one. -/
def pairs : List Expr → List (Expr × Expr)
  | [] => []
  | e :: es => es.map (fun later => (e, later)) ++ pairs es

/-- A chain of one integer operation, grouped to the left. -/
def chain (op : Arith) : List Expr → Expr
  | [] => literal true
  | e :: es => es.foldl (arith op) e

end Expr

/-- The operators that solvers use. -/
inductive Operator where
  | equal | distinct
  | compare (op : Comparison)
  | minus | plus | mul
  | quotient | remainder
  | and | or | not
deriving DecidableEq, Repr

namespace Operator

/-- The operator of a name. -/
def ofName? (name : String) : Option Operator :=
  if name = "=" then some .equal
  else if name = "distinct" then some .distinct
  else if name = ">=" then some (.compare .ge)
  else if name = "<=" then some (.compare .le)
  else if name = ">" then some (.compare .gt)
  else if name = "<" then some (.compare .lt)
  else if name = "-" then some .minus
  else if name = "+" then some .plus
  else if name = "*" then some .mul
  else if name = "div" then some .quotient
  else if name = "mod" then some .remainder
  else if name = "and" then some .and
  else if name = "or" then some .or
  else if name = "not" then some .not
  else none

/-- The formula that an operator makes of its operands, or how many operands it wants. A minus sign
takes a single operand too. -/
def apply : Operator → List Expr → Except Operands Expr
  | .equal, [l, r] => .ok (.equal l r)
  | .equal, es =>
    if 2 ≤ es.length then .ok (.conj ((Expr.neighbours es).map fun p => .equal p.1 p.2))
    else .error (.atLeast 2)
  | .distinct, es =>
    if 2 ≤ es.length then .ok (.conj ((Expr.pairs es).map fun p => .differ p.1 p.2))
    else .error (.atLeast 2)
  | .compare op, [l, r] => .ok (.compare op l r)
  | .compare _, _ => .error (.exactly 2)
  | .minus, [e] => .ok (.minus e)
  | .minus, es => if 2 ≤ es.length then .ok (.chain .minus es) else .error (.atLeast 2)
  | .plus, es => if 2 ≤ es.length then .ok (.chain .plus es) else .error (.atLeast 2)
  | .mul, es => if 2 ≤ es.length then .ok (.chain .mul es) else .error (.atLeast 2)
  | .quotient, [l, r] => .ok (.arith .div l r)
  | .quotient, _ => .error (.exactly 2)
  | .remainder, [l, r] => .ok (.arith .rem l r)
  | .remainder, _ => .error (.exactly 2)
  | .and, es => if 1 ≤ es.length then .ok (.conj es) else .error (.atLeast 1)
  | .or, es => if 1 ≤ es.length then .ok (.disj es) else .error (.atLeast 1)
  | .not, [e] => .ok (.negation e)
  | .not, _ => .error (.exactly 1)

end Operator

/-- The formula that an application stands for. -/
def applyNamed (name : String) (operands : List Expr) : Except DecodeError Expr :=
  match Operator.ofName? name with
  | none => .error (.unknownOperator name)
  | some op =>
    match op.apply operands with
    | .ok e => .ok e
    | .error wanted => .error (.arity name wanted operands.length)

end Interpolants
