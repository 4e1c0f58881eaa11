import Interpolants.Expr.Operator
import Interpolants.Expr.Value
import Interpolants.Expr.Variable

/-!
# Interpolants — formulas

The syntax of typed formulas. Booleans and integers are the fragment that solvers are asked about;
casts, quantifiers and bitvector operations can be written but are refused on the way to a solver.
-/

namespace Interpolants

/-- A typed formula or term. -/
inductive Expr where
  | var (v : Variable)
  | const (c : Value)
  | unary (op : UnaryOp) (e : Expr)
  | binary (op : BinaryOp) (left right : Expr)
  | cast (e : Expr) (target : Ty)
  | quantified (q : Quantifier) (bound : List Variable) (body : Expr)
deriving DecidableEq

/-- The constructs that have neither a value nor a term of a solver. -/
inductive Construct where
  | cast | quantifier | bitvector
deriving DecidableEq, Repr

/-- How a construct is called. -/
def Construct.name : Construct → String
  | .cast => "cast"
  | .quantifier => "quantifier"
  | .bitvector => "bitvector operation"

namespace Expr

/-- A truth value. -/
def literal (b : Bool) : Expr :=
  .const (.bool b)

/-- An integer constant. -/
def integer (i : Int64) : Expr :=
  .const (.int i)

/-- The negation of a formula. -/
def negation (e : Expr) : Expr :=
  .unary .not e

/-- The integer `-e`. -/
def minus (e : Expr) : Expr :=
  .unary .minus e

/-- A comparison of two operands. -/
def compare (op : Comparison) (left right : Expr) : Expr :=
  .binary (.compare op) left right

/-- An integer operation on two operands. -/
def arith (op : Arith) (left right : Expr) : Expr :=
  .binary (.arith op) left right

/-- Two formulas joined by a connective. -/
def logic (op : Connective) (left right : Expr) : Expr :=
  .binary (.logic op) left right

/-- Joins some formulas by a connective, grouped to the left, or gives `unit` for none. -/
def join (op : Connective) (unit : Expr) : List Expr → Expr
  | [] => unit
  | e :: es => es.foldl (logic op) e

/-- The conjunction of some formulas; the empty one is true. -/
def conj (es : List Expr) : Expr :=
  join .and (literal true) es

/-- The disjunction of some formulas; the empty one is false. -/
def disj (es : List Expr) : Expr :=
  join .or (literal false) es

/-- The type of a formula's value. An operation on integers or bitvectors has the type of its left
operand. -/
def ty : Expr → Ty
  | .var v => v.ty
  | .const c => c.ty
  | .unary .not _ => .bool
  | .unary .minus e | .unary .complement e => e.ty
  | .binary (.compare _) _ _ | .binary (.logic _) _ _ => .bool
  | .binary (.arith _) left _ | .binary (.bits _) left _ => left.ty
  | .cast _ target => target
  | .quantified _ _ _ => .bool

/-- The names that occur outside the scope of a quantifier binding them, with repetitions. -/
def names : Expr → List String
  | .var v => [v.name]
  | .const _ => []
  | .unary _ e | .cast e _ => e.names
  | .binary _ left right => left.names ++ right.names
  | .quantified _ bound body => body.names.filter fun n => !(bound.map Variable.name).contains n

/-- The free variables' names, each once, in the order of their code points. -/
def freeVariables (e : Expr) : List String :=
  e.names.eraseDups.mergeSort fun a b => decide (a ≤ b)

theorem mem_freeVariables {e : Expr} {n : String} : n ∈ e.freeVariables ↔ n ∈ e.names := by
  simp [freeVariables, List.mem_mergeSort]

end Expr

end Interpolants
