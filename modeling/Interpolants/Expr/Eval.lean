import Interpolants.Expr.Basic
import Interpolants.Number.Word

/-!
# Interpolants — evaluation

The value of a formula under a valuation of its variables. Arithmetic is exact and its result is
then narrowed to a word: a result that does not fit is an overflow and never wraps. Division rounds
so that the remainder is never negative.
-/

namespace Interpolants

/-- Gives values to names. -/
def Valuation : Type :=
  String → Option Value

namespace Valuation

/-- Gives no name a value. -/
def empty : Valuation :=
  fun _ => none

/-- Gives one name a value and leaves the others. -/
def set (v : Valuation) (name : String) (a : Value) : Valuation :=
  fun other => if other = name then some a else v other

/-- Gives names values in turn, so that the last value of each name stays. -/
def ofList (entries : List (String × Value)) : Valuation :=
  entries.foldl (fun v entry => v.set entry.1 entry.2) empty

end Valuation

/-- Why a formula has no value. -/
inductive EvalError where
  /-- A variable without a value. -/
  | unassigned (name : String)
  /-- An operand that is no integer. -/
  | notInteger (found : Value)
  /-- An operand that is no boolean. -/
  | notBoolean (found : Value)
  | divisionByZero
  | overflow
  /-- A construct that has no value. -/
  | unsupported (what : Construct)
deriving DecidableEq

/-- The wording of an evaluation error. -/
def EvalError.message : EvalError → String
  | .unassigned name => "variable " ++ name ++ " has no value"
  | .notInteger found => "expected a integer value, found " ++ found.render
  | .notBoolean found => "expected a boolean value, found " ++ found.render
  | .divisionByZero => "division by zero"
  | .overflow => "integer overflow"
  | .unsupported what => "cannot evaluate " ++ what.name

namespace Value

/-- The integer that a value is. -/
def asInt : Value → Except EvalError Int64
  | .int i => .ok i
  | other => .error (.notInteger other)

/-- The boolean that a value is. -/
def asBool : Value → Except EvalError Bool
  | .bool b => .ok b
  | other => .error (.notBoolean other)

end Value

/-- An exact result as a word. -/
def narrow (n : Int) : Except EvalError Int64 :=
  match Word.signed? n with
  | some i => .ok i
  | none => .error .overflow

namespace Comparison

/-- Whether two integers stand in an order relation. The left operand is looked at first. -/
def ordered (relation : Int64 → Int64 → Bool) (l r : Value) : Except EvalError Bool := do
  let l ← l.asInt
  let r ← r.asInt
  return relation l r

/-- Whether a comparison holds. Values of any kind may be equal or differ; only integers are
ordered. -/
def apply (op : Comparison) (l r : Value) : Except EvalError Bool :=
  match op with
  | .eq => .ok (l == r)
  | .ne => .ok (l != r)
  | .ge => ordered (fun l r => decide (r ≤ l)) l r
  | .gt => ordered (fun l r => decide (r < l)) l r
  | .le => ordered (fun l r => decide (l ≤ r)) l r
  | .lt => ordered (fun l r => decide (l < r)) l r

end Comparison

/-- The result of an integer operation. A remainder counts as an overflow where the quotient
does. -/
def Arith.apply (op : Arith) (l r : Int64) : Except EvalError Int64 :=
  match op with
  | .plus => narrow (l.toInt + r.toInt)
  | .minus => narrow (l.toInt - r.toInt)
  | .mul => narrow (l.toInt * r.toInt)
  | .div => if r.toInt = 0 then .error .divisionByZero else narrow (l.toInt / r.toInt)
  | .rem =>
    if r.toInt = 0 then .error .divisionByZero
    else do
      let _ ← narrow (l.toInt / r.toInt)
      narrow (l.toInt % r.toInt)

/-- The truth table of a connective. -/
def Connective.apply (op : Connective) (l r : Bool) : Bool :=
  match op with
  | .and => l && r
  | .or => l || r
  | .equiv => l == r
  | .implies => !l || r
  | .xor => l != r

namespace Expr

/-- The value of a formula. Operands are evaluated from left to right, all of them, and the first
error is the formula's. -/
def eval (v : Valuation) : Expr → Except EvalError Value
  | .var x =>
    match v x.name with
    | some a => .ok a
    | none => .error (.unassigned x.name)
  | .const c => .ok c
  | .unary .not e => do
    let b ← (← e.eval v).asBool
    return .bool !b
  | .unary .minus e => do
    let i ← (← e.eval v).asInt
    return .int (← narrow (-i.toInt))
  | .unary .complement _ => .error (.unsupported .bitvector)
  | .binary (.compare op) left right => do
    let l ← left.eval v
    let r ← right.eval v
    return .bool (← op.apply l r)
  | .binary (.arith op) left right => do
    let l ← (← left.eval v).asInt
    let r ← (← right.eval v).asInt
    return .int (← op.apply l r)
  | .binary (.logic op) left right => do
    let l ← (← left.eval v).asBool
    let r ← (← right.eval v).asBool
    return .bool (op.apply l r)
  | .binary (.bits _) _ _ => .error (.unsupported .bitvector)
  | .cast _ _ => .error (.unsupported .cast)
  | .quantified _ _ _ => .error (.unsupported .quantifier)

/-- Whether a formula is true; an error where its value is no boolean. -/
def holds (v : Valuation) (e : Expr) : Except EvalError Bool := do
  (← e.eval v).asBool

end Expr

/-- A result is narrowed to the word that equals it. -/
theorem narrow_eq_ok_iff {n : Int} {i : Int64} : narrow n = .ok i ↔ i.toInt = n := by
  rw [← Word.signed?_eq_some_iff]
  unfold narrow
  split <;> simp_all

namespace Valuation

theorem set_self (v : Valuation) (name : String) (a : Value) : v.set name a name = some a := by
  simp [set]

theorem set_of_ne (v : Valuation) {name other : String} (a : Value) (h : other ≠ name) :
    v.set name a other = v other := by
  simp [set, h]

end Valuation

end Interpolants
