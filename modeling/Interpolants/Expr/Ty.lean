import Interpolants.Number.Decimal

/-!
# Interpolants — types

Formulas are over booleans and integers, where an integer type may be bounded on either side.
Bitvectors can be written down but never reach a solver.
-/

namespace Interpolants

/-- Inclusive bounds on an integer, either of which may be absent. -/
structure Bounds where
  min : Option Int64 := none
  max : Option Int64 := none
deriving DecidableEq, Repr

/-- Whether a value lies within the bounds. -/
def Bounds.contains (b : Bounds) (i : Int64) : Bool :=
  b.min.all (· ≤ i) && b.max.all (i ≤ ·)

/-- The type of a formula. -/
inductive Ty where
  | bool
  | int (bounds : Bounds)
  | bitvec (width : UInt32)
deriving DecidableEq, Repr

namespace Ty

/-- The integers without bounds. -/
def integer : Ty :=
  .int {}

/-- The integers in the range of signed 32-bit words. -/
def sint32 : Ty :=
  .int ⟨some (-2147483648), some 2147483647⟩

def isBool : Ty → Bool
  | .bool => true
  | _ => false

def isInt : Ty → Bool
  | .int _ => true
  | _ => false

/-- The written form of one bound: nothing where the bound is absent. -/
def boundChars : Option Int64 → List Char
  | none => []
  | some i => Decimal.chars i.toInt

/-- The written form of a type. Bounds are shown unless both are absent. -/
def chars : Ty → List Char
  | .bool => "bool".toList
  | .int ⟨none, none⟩ => "int".toList
  | .int ⟨min, max⟩ => "int[".toList ++ boundChars min ++ "..".toList ++ boundChars max ++ [']']
  | .bitvec width => "bv".toList ++ Decimal.digits width.toNat

/-- The written form of a type, as text. -/
def render (t : Ty) : String :=
  String.ofList t.chars

theorem isBool_iff {t : Ty} : t.isBool = true ↔ t = .bool := by
  cases t <;> simp [isBool]

end Ty

theorem Bounds.contains_iff {b : Bounds} {i : Int64} :
    b.contains i = true ↔ (∀ lo, b.min = some lo → lo ≤ i) ∧ ∀ hi, b.max = some hi → i ≤ hi := by
  obtain ⟨lo, hi⟩ := b
  cases lo <;> cases hi <;> simp [Bounds.contains]

end Interpolants
