import Interpolants.Proofs.Smt.Semantics

/-!
# Interpolants — sorts of solver terms

Which terms the solver's language allows, of those that are made of numerals in the range of signed
words, of let blocks and of the operators of this library, and of which sort they are.
-/

namespace Interpolants

namespace Smt

/-- The sorts of terms. -/
inductive Srt where
  | bool | int
deriving DecidableEq, Repr

/-- The sort of a value. -/
def Value.srt : Value → Srt
  | .bool _ => .bool
  | .int _ => .int

/-- The sort of an application, if its operator takes arguments of these sorts. Arguments of an
equality have one sort. -/
def Srt.apply : String → List Srt → Option Srt
  | "=", s :: s' :: ss | "distinct", s :: s' :: ss =>
    if ∀ other ∈ s' :: ss, other = s then some .bool else none
  | ">=", [.int, .int] | "<=", [.int, .int] | ">", [.int, .int] | "<", [.int, .int] => some .bool
  | "-", [.int] => some .int
  | "-", s :: s' :: ss | "+", s :: s' :: ss | "*", s :: s' :: ss =>
    if ∀ other ∈ s :: s' :: ss, other = .int then some .int else none
  | "div", [.int, .int] | "mod", [.int, .int] => some .int
  | "and", s :: ss | "or", s :: ss =>
    if ∀ other ∈ s :: ss, other = .bool then some .bool else none
  | "not", [.bool] => some .bool
  | _, _ => none

/-- The sorts of terms whose numerals are in the range of signed words. -/
def sorts : Interpretation Srt where
  literal _ := .bool
  numeral n := if n.toNat ≤ Int64.maxValue.toInt then some .int else none
  negative n := if Int64.minValue.toInt ≤ -n.toNat then some .int else none
  apply := Srt.apply

end Smt

/-- The sort of a variable's type. -/
def Ty.srt? : Ty → Option Smt.Srt
  | .bool => some .bool
  | .int _ => some .int
  | .bitvec _ => none

/-- The sorts of declared variables. -/
def Registry.srts (declared : Registry) : Env Smt.Srt :=
  fun name => (declared.find? name).bind fun x => x.ty.srt?

/-- The sort of a term over declared variables, if the term is well-sorted. -/
def Sexp.srt? (declared : Registry) (t : Sexp) : Option Smt.Srt :=
  t.interpret Smt.sorts declared.srts

/-- A valuation gives each declared variable a value of its sort. -/
def Valuation.Sorted (v : Valuation) (declared : Registry) : Prop :=
  ∀ name x τ, declared.find? name = some x → x.ty.srt? = some τ →
    ∃ a b, v name = some a ∧ a.smt? = some b ∧ b.srt = τ

end Interpolants
