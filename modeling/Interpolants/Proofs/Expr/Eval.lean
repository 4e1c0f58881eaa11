import Interpolants.Expr.Eval
import Interpolants.Proofs.Outcome

/-!
# Interpolants — values of composed formulas

When a composed formula has a value: one equivalence for each kind of operator, so that no later
proof opens the evaluator.
-/

namespace Interpolants

theorem Value.asInt_eq_ok_iff {a : Value} {i : Int64} : a.asInt = .ok i ↔ a = .int i := by
  cases a <;> simp [Value.asInt]

theorem Value.asBool_eq_ok_iff {a : Value} {b : Bool} : a.asBool = .ok b ↔ a = .bool b := by
  cases a <;> simp [Value.asBool]

/-- Only integers are ordered. -/
theorem Comparison.ordered_eq_ok_iff {relation : Int64 → Int64 → Bool} {l r : Value} {b : Bool} :
    ordered relation l r = .ok b ↔ ∃ i j, l = .int i ∧ r = .int j ∧ b = relation i j := by
  unfold ordered
  simp only [except_bind_eq_ok_iff, Value.asInt_eq_ok_iff, pure, Except.pure, Except.ok.injEq]
  grind

/-- The exact result of an integer operation. -/
def Arith.exact : Arith → Int → Int → Int
  | .plus, m, n => m + n
  | .minus, m, n => m - n
  | .mul, m, n => m * n
  | .div, m, n => m / n
  | .rem, m, n => m % n

/-- Whether an operation divides. -/
def Arith.divides : Arith → Bool
  | .div | .rem => true
  | .plus | .minus | .mul => false

/-- An integer operation with a result has the exact one, and divides by no zero. -/
theorem Arith.exact_of_apply {op : Arith} {i j k : Int64} (h : op.apply i j = .ok k) :
    k.toInt = op.exact i.toInt j.toInt ∧ (op.divides = true → j.toInt ≠ 0) := by
  cases op with
  | plus | minus | mul => exact ⟨narrow_eq_ok_iff.1 h, nofun⟩
  | div =>
    rw [Arith.apply] at h
    split at h
    · cases h
    · next hzero => exact ⟨narrow_eq_ok_iff.1 h, fun _ => hzero⟩
  | rem =>
    rw [Arith.apply] at h
    split at h
    · cases h
    · next hzero =>
      obtain ⟨quotient, -, h⟩ := except_bind_eq_ok_iff.1 h
      exact ⟨narrow_eq_ok_iff.1 h, fun _ => hzero⟩

namespace Expr

variable {v : Valuation} {e left right : Expr} {a : Value}

theorem eval_var_eq_ok_iff {x : Variable} : (var x).eval v = .ok a ↔ v x.name = some a := by
  rw [eval]
  cases v x.name <;> simp

/-- A negation has a value if its operand is a boolean. -/
theorem eval_not_eq_ok_iff :
    (unary .not e).eval v = .ok a ↔ ∃ b, e.eval v = .ok (.bool b) ∧ a = .bool !b := by
  rw [eval]
  simp only [except_bind_eq_ok_iff, Value.asBool_eq_ok_iff, pure, Except.pure, Except.ok.injEq]
  grind

/-- A minus sign has a value if its operand is an integer whose opposite fits in a word. -/
theorem eval_minus_eq_ok_iff :
    (unary .minus e).eval v = .ok a ↔
      ∃ i j, e.eval v = .ok (.int i) ∧ narrow (-i.toInt) = .ok j ∧ a = .int j := by
  rw [eval]
  simp only [except_bind_eq_ok_iff, Value.asInt_eq_ok_iff, pure, Except.pure, Except.ok.injEq]
  grind

/-- A comparison has a value if both sides have one and these can be compared. -/
theorem eval_compare_eq_ok_iff {op : Comparison} :
    (binary (.compare op) left right).eval v = .ok a ↔
      ∃ l r b, left.eval v = .ok l ∧ right.eval v = .ok r ∧ op.apply l r = .ok b ∧ a = .bool b := by
  rw [eval]
  simp only [except_bind_eq_ok_iff, pure, Except.pure, Except.ok.injEq]
  grind

/-- An integer operation has a value if its operands are integers and the result is a word. -/
theorem eval_arith_eq_ok_iff {op : Arith} :
    (binary (.arith op) left right).eval v = .ok a ↔
      ∃ i j k, left.eval v = .ok (.int i) ∧ right.eval v = .ok (.int j) ∧
        op.apply i j = .ok k ∧ a = .int k := by
  rw [eval]
  simp only [except_bind_eq_ok_iff, Value.asInt_eq_ok_iff, pure, Except.pure, Except.ok.injEq]
  grind

/-- A connective has a value if both operands are booleans. -/
theorem eval_logic_eq_ok_iff {op : Connective} :
    (binary (.logic op) left right).eval v = .ok a ↔
      ∃ p q, left.eval v = .ok (.bool p) ∧ right.eval v = .ok (.bool q) ∧
        a = .bool (op.apply p q) := by
  rw [eval]
  simp only [except_bind_eq_ok_iff, Value.asBool_eq_ok_iff, pure, Except.pure, Except.ok.injEq]
  grind

end Expr

end Interpolants
