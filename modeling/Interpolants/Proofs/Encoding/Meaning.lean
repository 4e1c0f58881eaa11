import Interpolants.Proofs.Encoding.Term
import Interpolants.Proofs.Expr.Eval
import Interpolants.Proofs.Number.Word
import Interpolants.Proofs.Smt.Semantics

/-!
# Interpolants — encoding preserves meaning

A formula with a value and its term in the solver's language have the same value. Evaluation is
bounded and refuses what does not fit, the solver's language is exact: so the value of the term is
the value of the formula wherever the formula has one.
-/

namespace Interpolants

/-- A valuation of names by booleans and integers. -/
def Valuation.Scalar (v : Valuation) : Prop :=
  ∀ name a, v name = some a → ∃ b, a.smt? = some b

theorem Valuation.scalar_empty : Valuation.empty.Scalar :=
  nofun

/-- A scalar valuation stays one when a name gets another scalar value. -/
theorem Valuation.Scalar.set {v : Valuation} (hv : v.Scalar) (name : String) {a : Value}
    {b : Smt.Value} (ha : a.smt? = some b) : (v.set name a).Scalar := by
  intro other a' h
  by_cases hname : other = name
  · subst hname
    rw [Valuation.set_self] at h
    cases h
    exact ⟨b, ha⟩
  · rw [Valuation.set_of_ne v a hname] at h
    exact hv other a' h

section

variable {zero : Smt.ByZero} {v : Valuation}

/-! ## Applications -/

/-- The value of an application to one argument. -/
theorem smtValue_one {head : String} (hlet : head ≠ "let") {t : Sexp} {a : Smt.Value}
    (ht : t.smtValue zero v = some a) :
    (Sexp.app head [t]).smtValue zero v = Smt.apply zero head [a] := by
  rw [Sexp.smtValue] at ht
  rw [Sexp.smtValue, Smt.interpret_values_app hlet, Sexp.interpretAll, ht]
  rfl

/-- The value of an application to two arguments. -/
theorem smtValue_two {head : String} (hlet : head ≠ "let") {l r : Sexp} {a b : Smt.Value}
    (hl : l.smtValue zero v = some a) (hr : r.smtValue zero v = some b) :
    (Sexp.app head [l, r]).smtValue zero v = Smt.apply zero head [a, b] := by
  rw [Sexp.smtValue] at hl hr
  rw [Sexp.smtValue, Smt.interpret_values_app hlet, Sexp.interpretAll, hl, Sexp.interpretAll, hr]
  rfl

/-- The term of a constant has the constant's value, the least one included. -/
theorem smtValue_intTerm (i : Int64) : (intTerm i).smtValue zero v = some (.int i.toInt) := by
  have hmagnitude := Word.toNat_magnitude i
  have hnumeral : (Sexp.numeral (Word.magnitude i)).smtValue zero v
      = some (.int (Word.magnitude i).toNat) := rfl
  unfold intTerm
  split
  · next hneg =>
    rw [Word.neg_iff] at hneg
    -- the magnitude of a negative word is its negation, also of the least one
    have hsign : -((Word.magnitude i).toNat : Int) = i.toInt := by omega
    rw [smtValue_one (by decide) hnumeral, ← hsign]
    rfl
  · next hneg =>
    rw [Word.neg_iff] at hneg
    have hsign : ((Word.magnitude i).toNat : Int) = i.toInt := by omega
    rw [hnumeral, hsign]

/-! ## Operators -/

/-- The term of a comparison has the comparison's truth value. -/
theorem smtValue_comparison {op : Comparison} {l r : Sexp} {a b : Value} {x y : Smt.Value}
    (hx : a.smt? = some x) (hy : b.smt? = some y) (hl : l.smtValue zero v = some x)
    (hr : r.smtValue zero v = some y) {holds : Bool} (h : op.apply a b = .ok holds) :
    (op.term l r).smtValue zero v = some (.bool holds) := by
  have hequal : (Sexp.app "=" [l, r]).smtValue zero v = some (.bool (a == b)) := by
    rw [smtValue_two (by decide) hl hr]
    show some (Smt.Value.bool ((x == y) && true)) = _
    rw [Value.smt?_beq hx hy, Bool.and_true]
  cases op with
  | eq =>
    cases h
    exact hequal
  | ne =>
    cases h
    exact (smtValue_one (by decide) hequal).trans rfl
  | ge | gt | le | lt =>
    -- only integers are ordered, and words are ordered as the integers they stand for
    obtain ⟨i, j, rfl, rfl, rfl⟩ := Comparison.ordered_eq_ok_iff.1 h
    cases hx
    cases hy
    rw [Comparison.term, smtValue_two (by decide) hl hr, Smt.apply]
    simp only [Int64.le_iff_toInt_le, Int64.lt_iff_toInt_lt]

/-- **The solver's arithmetic is exact arithmetic**, unless it divides by zero. -/
theorem apply_head {op : Arith} {m n : Int} (h : op.divides = true → n ≠ 0) :
    Smt.apply zero op.head [.int m, .int n] = some (.int (op.exact m n)) := by
  cases op with
  | plus | minus | mul => rfl
  | div =>
    show some (Smt.Value.int (if n = 0 then _ else _)) = _
    rw [if_neg (h rfl)]
    rfl
  | rem =>
    show some (Smt.Value.int (if n = 0 then _ else _)) = _
    rw [if_neg (h rfl)]
    rfl

/-- The solver's connectives are those of formulas. -/
theorem apply_connective {op : Connective} {head : String} (h : op.head? = some head) (p q : Bool) :
    Smt.apply zero head [.bool p, .bool q] = some (.bool (op.apply p q)) := by
  cases op <;> cases h <;> cases p <;> cases q <;> rfl

/-- **The term of a formula has the formula's value.** -/
theorem smtValue_of_hasTerm (hv : v.Scalar) {e : Expr} {t : Sexp} (h : e.HasTerm t)
    (hnames : ∀ x ∈ e.vars, x.name ≠ "true" ∧ x.name ≠ "false") {a : Value}
    (ha : e.eval v = .ok a) : ∃ b, a.smt? = some b ∧ t.smtValue zero v = some b := by
  induction h generalizing a with
  | var x =>
    obtain ⟨htrue, hfalse⟩ := hnames x (List.mem_singleton_self x)
    have hvalue := Expr.eval_var_eq_ok_iff.1 ha
    obtain ⟨b, hb⟩ := hv x.name a hvalue
    refine ⟨b, hb, ?_⟩
    show (if _ then _ else if _ then _ else (v x.name).bind Value.smt?) = _
    rw [if_neg htrue, if_neg hfalse, hvalue]
    exact hb
  | literal b =>
    cases ha
    exact ⟨.bool b, rfl, by cases b <;> rfl⟩
  | integer i =>
    cases ha
    exact ⟨.int i.toInt, rfl, smtValue_intTerm i⟩
  | negation _ ih =>
    obtain ⟨p, hp, rfl⟩ := Expr.eval_not_eq_ok_iff.1 ha
    obtain ⟨b, hb, ht⟩ := ih hnames hp
    cases hb
    exact ⟨.bool !p, rfl, smtValue_one (by decide) ht⟩
  | minus _ ih =>
    obtain ⟨i, j, hi, hj, rfl⟩ := Expr.eval_minus_eq_ok_iff.1 ha
    obtain ⟨b, hb, ht⟩ := ih hnames hi
    cases hb
    refine ⟨.int j.toInt, rfl, ?_⟩
    -- the negation did not overflow, so it is exact
    rw [smtValue_one (by decide) ht, narrow_eq_ok_iff.1 hj]
    rfl
  | compare op _ _ ihl ihr =>
    obtain ⟨l, r, holds, hl, hr, hholds, rfl⟩ := Expr.eval_compare_eq_ok_iff.1 ha
    obtain ⟨hleft, hright⟩ := List.forall_mem_append.1 hnames
    obtain ⟨x, hx, hlt⟩ := ihl hleft hl
    obtain ⟨y, hy, hrt⟩ := ihr hright hr
    exact ⟨.bool holds, rfl, smtValue_comparison hx hy hlt hrt hholds⟩
  | arith op _ _ ihl ihr =>
    obtain ⟨i, j, k, hi, hj, hk, rfl⟩ := Expr.eval_arith_eq_ok_iff.1 ha
    obtain ⟨hleft, hright⟩ := List.forall_mem_append.1 hnames
    obtain ⟨x, hx, hlt⟩ := ihl hleft hi
    obtain ⟨y, hy, hrt⟩ := ihr hright hj
    cases hx
    cases hy
    -- a result is exact and its divisor not zero, so it does not matter what division by zero gives
    obtain ⟨hexact, hzero⟩ := Arith.exact_of_apply hk
    refine ⟨.int k.toInt, rfl, ?_⟩
    rw [smtValue_two (by cases op <;> decide) hlt hrt, apply_head hzero, hexact]
  | @logic op head hhead _ _ _ _ _ _ ihl ihr =>
    obtain ⟨p, q, hp, hq, rfl⟩ := Expr.eval_logic_eq_ok_iff.1 ha
    obtain ⟨hleft, hright⟩ := List.forall_mem_append.1 hnames
    obtain ⟨x, hx, hlt⟩ := ihl hleft hp
    obtain ⟨y, hy, hrt⟩ := ihr hright hq
    cases hx
    cases hy
    refine ⟨.bool (op.apply p q), rfl, ?_⟩
    rw [smtValue_two (by cases op <;> cases hhead <;> decide) hlt hrt, apply_connective hhead]

end

/-- **Encoding preserves meaning.** Whatever has been declared before, the term that encoding
returns has the value of the formula under every valuation under which the formula has a value, for
every choice of what division by zero gives. -/
theorem encode_smtValue (zero : Smt.ByZero) {start enc : Encoder} {e : Expr} {t : Sexp}
    (h : start.run e.encode = (.ok t, enc))
    (hnames : ∀ x ∈ e.vars, x.name ≠ "true" ∧ x.name ≠ "false") {v : Valuation}
    (hv : v.Scalar) {a : Value} (ha : e.eval v = .ok a) :
    ∃ b, a.smt? = some b ∧ t.smtValue zero v = some b :=
  smtValue_of_hasTerm hv (encode_ok h).term hnames ha

/-- A remainder of two negative numbers differs from the least constant. -/
theorem encode_smtValue_negative :
    let e := Expr.compare .ne (.arith .rem (.integer (-7)) (.var ⟨"x", .integer⟩))
      (.integer Int64.minValue)
    let t := Sexp.app "not" [.app "=" [
      .app "mod" [.app "-" [.numeral 7], .symbol "x"],
      .app "-" [.numeral 9223372036854775808]]]
    let v := Valuation.empty.set "x" (.int (-2))
    (Encoder.empty.run e.encode).1 = .ok t ∧ e.eval v = .ok (.bool true) ∧
      ∃ b, (Value.bool true).smt? = some b ∧ t.smtValue ⟨fun _ => 0, fun m => m⟩ v = some b := by
  intro e t v
  have hencode : Encoder.empty.run e.encode = (.ok t, (Encoder.empty.run e.encode).2) := rfl
  have hscalar : v.Scalar := Valuation.scalar_empty.set "x" rfl
  exact ⟨rfl, rfl, encode_smtValue _ hencode (by decide) hscalar rfl⟩

end Interpolants
