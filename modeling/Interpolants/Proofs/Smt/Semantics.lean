import Interpolants.Expr.Eval
import Interpolants.Proofs.Sexp.Interpretation

/-!
# Interpolants — what solver terms mean

The meaning that the solver's language gives to the terms of this library: booleans and integers
without bounds, with the operators on them. It is stated on its own, from the names of the operators
on, and knows nothing of formulas and of their encoding.

Division by zero has a value, but the language leaves open which. The value is a parameter here, and
what is proved holds for every choice.
-/

namespace Interpolants

namespace Smt

/-- What a term stands for. -/
inductive Value where
  | bool (b : Bool)
  | int (n : Int)
deriving DecidableEq, Repr

/-- The values that are left open: quotients and remainders by zero. -/
structure ByZero where
  quotient : Int → Int
  remainder : Int → Int

/-- Some integers, if all of the values are. -/
def ints? : List Value → Option (List Int)
  | [] => some []
  | .int n :: as => (ints? as).map (n :: ·)
  | .bool _ :: _ => none

/-- Some booleans, if all of the values are. -/
def bools? : List Value → Option (List Bool)
  | [] => some []
  | .bool b :: as => (bools? as).map (b :: ·)
  | .int _ :: _ => none

/-- Whether each value is equal to the next. -/
def chained (as : List Value) : Bool :=
  (as.zip (as.drop 1)).all fun p => p.1 == p.2

/-- An operation on at least two integers, grouped to the left. -/
def leftAssoc (op : Int → Int → Int) (as : List Value) : Option Value :=
  match ints? as with
  | some (m :: n :: ns) => some (.int ((n :: ns).foldl op m))
  | _ => none

@[simp] theorem ints?_map (ns : List Int) : ints? (ns.map .int) = some ns := by
  induction ns with
  | nil => rfl
  | cons n ns ih => rw [List.map_cons, ints?, ih, Option.map_some]

@[simp] theorem bools?_map (bs : List Bool) : bools? (bs.map .bool) = some bs := by
  induction bs with
  | nil => rfl
  | cons b bs ih => rw [List.map_cons, bools?, ih, Option.map_some]

/-- An operation on integers folds them from the left. -/
theorem leftAssoc_map (op : Int → Int → Int) (m n : Int) (ns : List Int) :
    leftAssoc op ((m :: n :: ns).map .int) = some (.int ((n :: ns).foldl op m)) := by
  rw [leftAssoc, ints?_map]

/-- What an application of an operator stands for. Quotients are rounded so that remainders are
never negative. -/
def apply (zero : ByZero) : String → List Value → Option Value
  | "=", a :: b :: as => some (.bool (chained (a :: b :: as)))
  | "distinct", a :: b :: as => some (.bool (decide (a :: b :: as).Nodup))
  | ">=", [.int m, .int n] => some (.bool (decide (n ≤ m)))
  | "<=", [.int m, .int n] => some (.bool (decide (m ≤ n)))
  | ">", [.int m, .int n] => some (.bool (decide (n < m)))
  | "<", [.int m, .int n] => some (.bool (decide (m < n)))
  | "-", [.int n] => some (.int (-n))
  | "-", as => leftAssoc (· - ·) as
  | "+", as => leftAssoc (· + ·) as
  | "*", as => leftAssoc (· * ·) as
  | "div", [.int m, .int n] => some (.int (if n = 0 then zero.quotient m else m / n))
  | "mod", [.int m, .int n] => some (.int (if n = 0 then zero.remainder m else m % n))
  | "and", a :: as => (bools? (a :: as)).map fun bs => .bool (bs.all id)
  | "or", a :: as => (bools? (a :: as)).map fun bs => .bool (bs.any id)
  | "not", [.bool b] => some (.bool !b)
  | _, _ => none

/-- The values of terms. -/
def values (zero : ByZero) : Interpretation Value where
  literal := .bool
  numeral n := some (.int n.toNat)
  negative n := some (.int (-(n.toNat : Int)))
  apply := apply zero

/-- In this meaning a minus sign before a numeral is an application like any other. -/
theorem interpret_values_app {zero : ByZero} {env : Env Value} {head : String}
    (hlet : head ≠ "let") (args : List Sexp) :
    (Sexp.app head args).interpret (values zero) env
      = (Sexp.interpretAll (values zero) env args).bind (apply zero head) := by
  rw [Sexp.interpret_app hlet]
  cases hmagnitude : Sexp.magnitude? head args with
  | none => rfl
  | some n =>
    obtain ⟨rfl, rfl⟩ := Sexp.magnitude?_eq_some_iff.1 hmagnitude
    rfl

end Smt

/-- The value of a formula as the value of a term. Bitvectors are no values of terms. -/
def Value.smt? : Value → Option Smt.Value
  | .bool b => some (.bool b)
  | .int i => some (.int i.toInt)
  | .bitvec _ _ => none

/-- Values of terms are equal as values of formulas are. -/
theorem Value.smt?_beq {a a' : Value} {b b' : Smt.Value} (h : a.smt? = some b)
    (h' : a'.smt? = some b') : (b == b') = (a == a') := by
  rw [Bool.eq_iff_iff, beq_iff_eq, beq_iff_eq]
  cases a <;> cases a' <;> cases h <;> cases h' <;> simp [Int64.toInt_inj]

/-- The counterpart of a value is an integer if the value is a word. -/
theorem Value.smt?_eq_int_iff {a : Value} {n : Int} :
    a.smt? = some (.int n) ↔ ∃ i : Int64, a = .int i ∧ i.toInt = n := by
  cases a <;> simp [Value.smt?]

/-- A valuation as an environment of terms. -/
def Valuation.smt (v : Valuation) : Env Smt.Value :=
  fun name => (v name).bind Value.smt?

/-- The value of a term under a valuation. -/
def Sexp.smtValue (zero : Smt.ByZero) (v : Valuation) (t : Sexp) : Option Smt.Value :=
  t.interpret (Smt.values zero) v.smt

end Interpolants
