import Interpolants.Proofs.Encoding.Term
import Interpolants.Proofs.Expr.Eval

/-!
# Interpolants — what a value depends on

Evaluation and the collection of free variables go through a formula in different ways. Evaluation
stops at casts, quantifiers and bitvector operations, since they have no value; the collection goes
on inside of them and leaves out what a quantifier binds. `Expr.reads` is what evaluation asks for.
All of it is free (`Expr.mem_freeVariables_of_mem_reads`), evaluation sees nothing else of a
valuation (`Expr.eval_congr_of_reads`), and it needs each of the values
(`Expr.exists_of_mem_reads`).
-/

namespace Interpolants

namespace Expr

/-- The names whose values evaluation asks for, from left to right. What has no value is not looked
into. -/
def reads : Expr → List String
  | .var x => [x.name]
  | .unary .not e | .unary .minus e => e.reads
  | .binary (.compare _) left right | .binary (.arith _) left right
  | .binary (.logic _) left right =>
    left.reads ++ right.reads
  | .const _ | .unary .complement _ | .binary (.bits _) _ _ | .cast _ _ | .quantified _ _ _ => []

variable {v w : Valuation} {e : Expr} {n : String}

/-- **What evaluation asks for is free**, since it stops in front of every quantifier. -/
theorem mem_freeVariables_of_mem_reads (h : n ∈ e.reads) : n ∈ e.freeVariables := by
  rw [mem_freeVariables]
  induction e with
  | var x => exact h
  | const c => cases h
  | unary op e ih =>
    cases op with
    | not | minus => exact ih h
    | complement => cases h
  | binary op left right ihl ihr =>
    cases op with
    | compare | arith | logic => exact List.mem_append.2 ((List.mem_append.1 h).imp ihl ihr)
    | bits => cases h
  | cast | quantified => cases h

/-- A free variable of a formula is written in it. -/
theorem exists_of_mem_freeVariables (h : n ∈ e.freeVariables) : ∃ x ∈ e.vars, x.name = n := by
  rw [mem_freeVariables] at h
  induction e with
  | var v => exact ⟨v, List.mem_singleton_self v, (List.mem_singleton.1 h).symm⟩
  | const c => cases h
  | unary op e ih | cast e target ih => exact ih h
  | binary op left right ihl ihr =>
    rcases List.mem_append.1 h with h | h
    · obtain ⟨x, hx, hname⟩ := ihl h
      exact ⟨x, List.mem_append_left _ hx, hname⟩
    · obtain ⟨x, hx, hname⟩ := ihr h
      exact ⟨x, List.mem_append_right _ hx, hname⟩
  | quantified q bound body ih => exact ih (List.mem_filter.1 h).1

/-- Valuations that agree on what evaluation asks for give the same value or the same error. -/
theorem eval_congr_of_reads (h : ∀ n ∈ e.reads, v n = w n) : e.eval v = e.eval w := by
  induction e with
  | var x => rw [eval, eval, h x.name (List.mem_singleton_self x.name)]
  | const c => rfl
  | unary op e ih =>
    cases op with
    | not | minus => rw [eval, eval, ih h]
    | complement => rfl
  | binary op left right ihl ihr =>
    cases op with
    | compare | arith | logic =>
      obtain ⟨hleft, hright⟩ := List.forall_mem_append.1 h
      rw [eval, eval, ihl hleft, ihr hright]
    | bits => rfl
  | cast | quantified => rfl

/-- Evaluation asks for no value that it can do without: no operand is skipped. -/
theorem exists_of_mem_reads {a : Value} (h : e.eval v = .ok a) (hn : n ∈ e.reads) :
    ∃ b, v n = some b := by
  induction e generalizing a with
  | var x =>
    rw [List.mem_singleton.1 hn]
    exact ⟨a, eval_var_eq_ok_iff.1 h⟩
  | const c => cases hn
  | unary op e ih =>
    cases op with
    | not =>
      obtain ⟨b, he, -⟩ := eval_not_eq_ok_iff.1 h
      exact ih he hn
    | minus =>
      obtain ⟨i, j, he, -⟩ := eval_minus_eq_ok_iff.1 h
      exact ih he hn
    | complement => cases hn
  | binary op left right ihl ihr =>
    cases op with
    | compare =>
      -- both sides have a value, so the names of both do
      obtain ⟨l, r, b, hl, hr, -⟩ := eval_compare_eq_ok_iff.1 h
      exact (List.mem_append.1 hn).elim (ihl hl) (ihr hr)
    | arith =>
      obtain ⟨i, j, k, hl, hr, -⟩ := eval_arith_eq_ok_iff.1 h
      exact (List.mem_append.1 hn).elim (ihl hl) (ihr hr)
    | logic =>
      obtain ⟨p, q, hl, hr, -⟩ := eval_logic_eq_ok_iff.1 h
      exact (List.mem_append.1 hn).elim (ihl hl) (ihr hr)
    | bits => cases hn
  | cast | quantified => cases hn

end Expr

/-- **Only free variables matter.** Two valuations that agree on the free variables of a formula,
each of which has the same value in both or none in either, give it the same value or the same
error, and the same answer to whether it holds. -/
theorem eval_of_agree {v w : Valuation} {e : Expr} (h : ∀ n ∈ e.freeVariables, v n = w n) :
    e.eval v = e.eval w ∧ e.holds v = e.holds w := by
  have heval : e.eval v = e.eval w :=
    Expr.eval_congr_of_reads fun n hn => h n (Expr.mem_freeVariables_of_mem_reads hn)
  refine ⟨heval, ?_⟩
  rw [Expr.holds, Expr.holds, heval]

/-- A name that is bound has different values, and one that is free has none. -/
theorem eval_of_agree_bound :
    let x : Variable := ⟨"x", .integer⟩
    let z : Variable := ⟨"z", .integer⟩
    let e : Expr := .logic .and (.compare .lt (.var x) (.var ⟨"y", .integer⟩))
      (.quantified .some [z] (.compare .eq (.var z) (.var x)))
    let v := Valuation.ofList [("x", .int 1), ("z", .int 0)]
    let w := Valuation.ofList [("x", .int 1), ("z", .bool true)]
    (∀ n ∈ e.freeVariables, v n = w n) ∧ "x" ∈ e.freeVariables ∧ v "z" ≠ w "z" ∧
      e.eval v = .error (.unassigned "y") ∧ e.eval v = e.eval w ∧ e.holds v = e.holds w := by
  intro x z e v w
  have hagree : ∀ n ∈ e.freeVariables, v n = w n := by
    intro n hn
    have hnames : n ∈ ["x", "y", "x"] := Expr.mem_freeVariables.1 hn
    simp only [List.mem_cons, List.not_mem_nil, or_false] at hnames
    rcases hnames with rfl | rfl | rfl <;> rfl
  have hx : "x" ∈ e.names := by decide
  exact ⟨hagree, Expr.mem_freeVariables.2 hx, by decide, rfl, eval_of_agree hagree⟩

end Interpolants
