import Interpolants.Decoding.Term
import Interpolants.Proofs.Sexp.Interpretation

/-!
# Interpolants — terms as formulas

What a solver's term stands for, read off the tree of the term and not off its text: a structural
recursion that passes an environment down and never sees a placeholder. `Sexp.formula?` is the
meaning that decoding a printed term is measured against.
-/

namespace Interpolants

open Sexp

/-- The numeral whose negation is the least signed word. It fits in no signed word itself. -/
def leastNumeral : Sexp :=
  .numeral (Word.magnitude Int64.minValue)

/-- Terms as formulas: an application stands for what decoding makes of its operator and its decoded
operands, except that the least signed word is written as a minus sign before its magnitude. -/
def formulas : Interpretation Expr where
  literal := .literal
  numeral n := (Word.signed? n.toNat).map .integer
  negative n :=
    if n = Word.magnitude Int64.minValue then some (.integer Int64.minValue)
    else (Word.signed? n.toNat).bind fun i => (applyNamed "-" [.integer i]).toOption
  apply head operands := (applyNamed head operands).toOption

/-- The names of the declared variables stand for the variables. -/
def Registry.environment (declared : Registry) : Env Expr :=
  fun name => (declared.find? name).map .var

/-- The formula that a term stands for in a scope: literals and numerals come first, then the names
of the scope, then the declared variables. -/
def Sexp.formula? (declared : Registry) (scope : Bindings) (t : Sexp) : Option Expr :=
  t.interpret formulas (declared.environment.extend scope)

/-- A list without let blocks stands for its operator applied to its decoded operands, unless it is
the written form of the least signed word. -/
theorem interpret_formulas_app {env : Env Expr} {head : String} (hlet : head ≠ "let")
    (args : List Sexp) :
    (app head args).interpret formulas env =
      if head = "-" ∧ args = [leastNumeral] then some (.integer Int64.minValue)
      else (interpretAll formulas env args).bind (formulas.apply head) := by
  rw [interpret_app hlet]
  cases hmagnitude : magnitude? head args with
  | none =>
    rw [if_neg]
    rintro ⟨rfl, rfl⟩
    cases hmagnitude
  | some n =>
    obtain ⟨rfl, rfl⟩ := magnitude?_eq_some_iff.1 hmagnitude
    show (if _ then _ else _) = _
    -- of all numerals behind a sign, the magnitude of the least word alone is no numeral itself
    by_cases hn : n = Word.magnitude Int64.minValue
    · rw [if_pos hn, if_pos ⟨rfl, by rw [hn]; rfl⟩]
    · have hargs : ¬ ("-" = "-" ∧ [Sexp.numeral n] = [leastNumeral]) := by
        rintro ⟨-, heq⟩
        cases heq
        exact hn rfl
      rw [if_neg hn, if_neg hargs]
      show _ = (((Word.signed? n.toNat).map Expr.integer).bind _).bind _
      cases Word.signed? n.toNat <;> rfl

/-! ## Operators

No operator's name has a special character, a digit or a mark of quoting in it, so nothing that is
written between pipes and no placeholder is an operator. -/

/-- The names of the operators. -/
def operatorNames : List String :=
  ["=", "distinct", ">=", "<=", ">", "<", "-", "+", "*", "div", "mod", "and", "or", "not"]

/-- Only the listed names are operators. -/
theorem ofName?_eq_none {name : String} (h : name ∉ operatorNames) :
    Operator.ofName? name = none := by
  simp only [operatorNames, List.mem_cons, List.not_mem_nil, or_false, not_or] at h
  simp [Operator.ofName?, h]

/-- A name with a character that no operator has is no operator. -/
theorem ofName?_of_mem {name : String} {c : Char} (hc : c ∈ name.toList) (p : Char → Bool)
    (hp : p c = true) (hwords : (operatorNames.all fun word => !word.toList.any p) = true) :
    Operator.ofName? name = none := by
  refine ofName?_eq_none fun hmem => ?_
  have hany : name.toList.any p = true := List.any_eq_true.2 ⟨c, hc, hp⟩
  have hword := List.all_eq_true.1 hwords name hmem
  rw [hany] at hword
  cases hword

/-- What is no operator cannot be applied. -/
theorem applyNamed_of_ofName? {name : String} (h : Operator.ofName? name = none)
    (operands : List Expr) : (applyNamed name operands).toOption = none := by
  rw [applyNamed, h]
  rfl

end Interpolants
