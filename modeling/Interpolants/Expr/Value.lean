import Interpolants.Expr.Ty

/-!
# Interpolants — values

What a formula evaluates to, and what its constants are.
-/

namespace Interpolants

/-- A boolean, an integer that fits in a signed 64-bit word, or a bitvector of some width. -/
inductive Value where
  | bool (b : Bool)
  | int (i : Int64)
  | bitvec (value : UInt64) (width : UInt32)
deriving DecidableEq, Repr

namespace Value

/-- The type of a value. Integers have no bounds. -/
def ty : Value → Ty
  | .bool _ => .bool
  | .int _ => .integer
  | .bitvec _ width => .bitvec width

/-- The written form of a value. -/
def chars : Value → List Char
  | .bool true => "true".toList
  | .bool false => "false".toList
  | .int i => Decimal.chars i.toInt
  | .bitvec value width =>
    Decimal.digits value.toNat ++ "bv".toList ++ Decimal.digits width.toNat

/-- The written form of a value, as text. -/
def render (v : Value) : String :=
  String.ofList v.chars

end Value

end Interpolants
