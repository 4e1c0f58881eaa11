import Interpolants.Proofs.Expr.Typing

/-!
# Interpolants — sorts of encoded formulas

The solver's language has a sort for a term if its operators take arguments of these sorts, that
many of them, and its symbols are declared. The term of a well-typed formula has the sort of the
formula, over any symbols that are declared as the formula uses them.
-/

namespace Interpolants

namespace Smt

/-- The sort of an application of one of the operators that formulas are encoded with. -/
def Srt.result? : String → List Srt → Option Srt
  | "=", [s, s'] => if s = s' then some .bool else none
  | ">=", [.int, .int] | "<=", [.int, .int] | ">", [.int, .int] | "<", [.int, .int] => some .bool
  | "-", [.int] => some .int
  | "+", [.int, .int] | "-", [.int, .int] | "*", [.int, .int] => some .int
  | "div", [.int, .int] | "mod", [.int, .int] => some .int
  | "not", [.bool] | "and", [.bool, .bool] | "or", [.bool, .bool] => some .bool
  | _, _ => none

/-- The sorts of terms. Numerals of any size are integers. -/
def signature : Interpretation Srt where
  literal _ := .bool
  numeral _ := some .int
  negative _ := some .int
  apply := Srt.result?

end Smt

/-- The sort of a term over symbols of some sorts, if the term is well-sorted. -/
def Sexp.sortIn (symbols : Env Smt.Srt) (t : Sexp) : Option Smt.Srt :=
  t.interpret Smt.signature symbols

section

variable {symbols : Env Smt.Srt}

/-- A minus sign before a numeral has the sort that the application has. -/
theorem Sexp.sortIn_app {head : String} (hlet : head ≠ "let") (args : List Sexp) :
    (app head args).sortIn symbols
      = (interpretAll Smt.signature symbols args).bind (Smt.Srt.result? head) := by
  rw [sortIn, interpret_app hlet]
  cases hmagnitude : magnitude? head args with
  | none => rfl
  | some n =>
    obtain ⟨rfl, rfl⟩ := magnitude?_eq_some_iff.1 hmagnitude
    rfl

/-- The sort of an application to one argument. -/
theorem Sexp.sortIn_one {head : String} (hlet : head ≠ "let") {t : Sexp} {s : Smt.Srt}
    (ht : t.sortIn symbols = some s) :
    (app head [t]).sortIn symbols = Smt.Srt.result? head [s] := by
  rw [sortIn] at ht
  rw [sortIn_app hlet, interpretAll, ht]
  rfl

/-- The sort of an application to two arguments. -/
theorem Sexp.sortIn_two {head : String} (hlet : head ≠ "let") {l r : Sexp} {s s' : Smt.Srt}
    (hl : l.sortIn symbols = some s) (hr : r.sortIn symbols = some s') :
    (app head [l, r]).sortIn symbols = Smt.Srt.result? head [s, s'] := by
  rw [sortIn] at hl hr
  rw [sortIn_app hlet, interpretAll, hl, interpretAll, hr]
  rfl

/-- A word's term is an integer, also where it has a minus sign. -/
theorem sortIn_intTerm (i : Int64) : (intTerm i).sortIn symbols = some .int := by
  unfold intTerm
  split
  · exact (Sexp.sortIn_one (by decide) rfl).trans rfl
  · rfl

/-- An equality compares terms of one sort, and an inequality denies one. -/
theorem sortIn_equality {op : Comparison} (hop : op.equates = true) {l r : Sexp} {s : Smt.Srt}
    (hl : l.sortIn symbols = some s) (hr : r.sortIn symbols = some s) :
    (op.term l r).sortIn symbols = some .bool := by
  have hequal : (Sexp.app "=" [l, r]).sortIn symbols = some .bool :=
    (Sexp.sortIn_two (by decide) hl hr).trans (if_pos rfl)
  cases op with
  | eq => exact hequal
  | ne => exact Sexp.sortIn_one (by decide) hequal
  | ge | gt | le | lt => cases hop

/-- A comparison of integers is boolean. -/
theorem sortIn_order {op : Comparison} (hop : op.equates = false) {l r : Sexp}
    (hl : l.sortIn symbols = some .int) (hr : r.sortIn symbols = some .int) :
    (op.term l r).sortIn symbols = some .bool := by
  cases op with
  | eq | ne => cases hop
  | ge | gt | le | lt => exact Sexp.sortIn_two (by decide) hl hr

/-- **The term of a well-typed formula has the sort of the formula** where the formula's variables
are declared with their sorts. -/
theorem Expr.HasTerm.sortIn {e : Expr} {t : Sexp} (h : e.HasTerm t) {s : Smt.Srt}
    (hsort : e.HasSort s)
    (hvars : ∀ x ∈ e.vars, (x.name ≠ "true" ∧ x.name ≠ "false") ∧ symbols x.name = x.ty.srt?) :
    t.sortIn symbols = some s := by
  induction h generalizing s with
  | var x =>
    obtain ⟨⟨htrue, hfalse⟩, hx⟩ := hvars x (List.mem_singleton_self x)
    cases hsort with
    | var hty =>
      show (if _ then _ else if _ then _ else symbols x.name) = _
      rw [if_neg htrue, if_neg hfalse, hx, hty]
  | literal b =>
    cases hsort
    cases b <;> rfl
  | integer i =>
    cases hsort
    exact sortIn_intTerm i
  | negation _ ih =>
    cases hsort with
    | negation he => exact Sexp.sortIn_one (by decide) (ih he hvars)
  | minus _ ih =>
    cases hsort with
    | minus he => exact Sexp.sortIn_one (by decide) (ih he hvars)
  -- equality takes operands of any one sort, an order takes integers
  | compare op _ _ ihl ihr =>
    obtain ⟨hleft, hright⟩ := List.forall_mem_append.1 hvars
    cases hsort with
    | equality hop hl hr => exact sortIn_equality hop (ihl hl hleft) (ihr hr hright)
    | order hop hl hr => exact sortIn_order hop (ihl hl hleft) (ihr hr hright)
  | arith op _ _ ihl ihr =>
    obtain ⟨hleft, hright⟩ := List.forall_mem_append.1 hvars
    cases hsort with
    | arith _ hl hr =>
      rw [Sexp.sortIn_two (by cases op <;> decide) (ihl hl hleft) (ihr hr hright)]
      cases op <;> rfl
  | @logic op head hhead _ _ _ _ _ _ ihl ihr =>
    obtain ⟨hleft, hright⟩ := List.forall_mem_append.1 hvars
    cases hsort with
    | logic _ hl hr =>
      rw [Sexp.sortIn_two (by cases op <;> cases hhead <;> decide) (ihl hl hleft) (ihr hr hright)]
      cases op <;> cases hhead <;> rfl

end

end Interpolants
