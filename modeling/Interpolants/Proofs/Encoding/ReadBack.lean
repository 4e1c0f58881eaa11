import Interpolants.Decoding.Application
import Interpolants.Proofs.Encoding.Term
import Interpolants.Proofs.Expr.Eval
import Interpolants.Proofs.Number.Word

/-!
# Interpolants — what is read back

A formula that is sent to a solver and read back is not always the same tree. Negative constants
come back as a sign before a constant, an inequality comes back as a negated equality, and whether
an equality is an equivalence is decided anew by the types of its operands. `Expr.readBack` says
exactly what comes back. It has the same variables and the same type (`vars_readBack`,
`ty_readBack`), and the same value, errors included (`eval_readBack`).
-/

namespace Interpolants

namespace Expr

/-- The formula that comes back for a formula. -/
def readBack : Expr → Expr
  | .var x => .var x
  | .const (.int i) =>
    if Int64.minValue < i ∧ i < 0 then minus (integer (-i)) else integer i
  | .const c => .const c
  | .unary op e => .unary op e.readBack
  | .binary (.compare .eq) left right => equal left.readBack right.readBack
  | .binary (.compare .ne) left right => negation (equal left.readBack right.readBack)
  | .binary (.logic .equiv) left right => equal left.readBack right.readBack
  | .binary op left right => .binary op left.readBack right.readBack
  | .cast e target => .cast e.readBack target
  | .quantified q bound body => .quantified q bound body.readBack

/-- Whether every equivalence in a formula has two boolean operands. -/
def equivBoolean : Expr → Bool
  | .var _ | .const _ => true
  | .unary _ e | .cast e _ | .quantified _ _ e => e.equivBoolean
  | .binary op left right =>
    (op != .logic .equiv || left.ty.isBool && right.ty.isBool)
      && left.equivBoolean && right.equivBoolean

/-! ## Variables and types -/

@[simp] theorem vars_equal (left right : Expr) :
    (equal left right).vars = left.vars ++ right.vars := by
  unfold equal
  split <;> rfl

@[simp] theorem ty_equal (left right : Expr) : (equal left right).ty = .bool := by
  unfold equal
  split <;> rfl

/-- **Every variable comes back**, in its place and with its type. -/
theorem vars_readBack (e : Expr) : e.readBack.vars = e.vars := by
  fun_induction readBack e with
  | case1 => rfl
  | case2 => rfl
  | case3 => rfl
  | case4 => rfl
  | case5 op e ih => exact ih
  | case6 l r ihl ihr => rw [vars_equal, ihl, ihr, vars]
  | case7 l r ihl ihr => rw [negation, vars, vars_equal, ihl, ihr, vars]
  | case8 l r ihl ihr => rw [vars_equal, ihl, ihr, vars]
  | case9 op l r _ _ _ ihl ihr => rw [vars, vars, ihl, ihr]
  | case10 e target ih => exact ih
  | case11 q bound body ih => exact ih

/-- A formula that is read back has its type. -/
theorem ty_readBack (e : Expr) : e.readBack.ty = e.ty := by
  fun_induction readBack e with
  | case1 => rfl
  | case2 => rfl
  | case3 => rfl
  | case4 => rfl
  | case5 op e ih =>
    cases op with
    | not => rfl
    | minus | complement => exact ih
  | case6 l r => exact ty_equal _ _
  | case7 l r => rfl
  | case8 l r => exact ty_equal _ _
  | case9 op l r _ _ _ ihl ihr =>
    -- an operation has the type of its left operand, or is boolean whatever the operands are
    cases op with
    | compare | logic => rfl
    | arith | bits => exact ihl
  | case10 => rfl
  | case11 => rfl

end Expr

/-! ## Booleans are booleans

Only the boolean variables of a formula matter here: every other operand of boolean type has a
boolean value or none. -/

/-- Some boolean variables have boolean values, where they have values. -/
def Valuation.RespectsBool (v : Valuation) (vars : List Variable) : Prop :=
  ∀ x ∈ vars, x.ty = .bool → ∀ a, v x.name = some a → ∃ b, a = .bool b

theorem Valuation.RespectsBool.of_append {v : Valuation} {xs ys : List Variable}
    (h : v.RespectsBool (xs ++ ys)) : v.RespectsBool xs ∧ v.RespectsBool ys :=
  ⟨fun x hx => h x (List.mem_append_left ys hx), fun x hx => h x (List.mem_append_right xs hx)⟩

namespace Expr

variable {v : Valuation}

/-- **Types are sound for booleans.** -/
theorem exists_bool_of_eval {e : Expr} (h : v.RespectsBool e.vars) (hty : e.ty = .bool)
    {a : Value} (ha : e.eval v = .ok a) : ∃ b, a = .bool b := by
  induction e generalizing a with
  | var x => exact h x (List.mem_singleton_self x) hty a (eval_var_eq_ok_iff.1 ha)
  | const c =>
    cases ha
    cases c with
    | bool b => exact ⟨b, rfl⟩
    | int | bitvec => cases hty
  | unary op e ih =>
    cases op with
    | not =>
      obtain ⟨b, -, rfl⟩ := eval_not_eq_ok_iff.1 ha
      exact ⟨!b, rfl⟩
    | minus =>
      -- the operand would be boolean too, and has an integer value
      obtain ⟨i, -, hi, -⟩ := eval_minus_eq_ok_iff.1 ha
      obtain ⟨b, hb⟩ := ih h hty hi
      cases hb
    | complement => cases ha
  | binary op l r ihl ihr =>
    cases op with
    | compare op =>
      obtain ⟨-, -, b, -, -, -, rfl⟩ := eval_compare_eq_ok_iff.1 ha
      exact ⟨b, rfl⟩
    | arith op =>
      obtain ⟨i, -, -, hi, -⟩ := eval_arith_eq_ok_iff.1 ha
      obtain ⟨b, hb⟩ := ihl h.of_append.1 hty hi
      cases hb
    | logic op =>
      obtain ⟨p, q, -, -, rfl⟩ := eval_logic_eq_ok_iff.1 ha
      exact ⟨op.apply p q, rfl⟩
    | bits => cases ha
  | cast => cases ha
  | quantified => cases ha

/-! ## Values -/

/-- An equality that is read as an equivalence has the value that it has as an equality. -/
theorem eval_equal {left right : Expr}
    (hleft : left.ty = .bool → ∀ a, left.eval v = .ok a → ∃ b, a = .bool b)
    (hright : right.ty = .bool → ∀ a, right.eval v = .ok a → ∃ b, a = .bool b) :
    (equal left right).eval v = (compare .eq left right).eval v := by
  unfold equal
  split
  · next hbool =>
    rw [Bool.and_eq_true, Ty.isBool_iff, Ty.isBool_iff] at hbool
    -- both evaluate the operands in the same order, and two booleans are equal if they are
    -- equivalent
    rw [logic, compare, eval, eval]
    cases hl : left.eval v with
    | error e => rfl
    | ok a =>
      obtain ⟨p, rfl⟩ := hleft hbool.1 a hl
      cases hr : right.eval v with
      | error e => rfl
      | ok a' =>
        obtain ⟨q, rfl⟩ := hright hbool.2 a' hr
        cases p <;> cases q <;> rfl
  · rfl

/-- An inequality has the value of the negated equality. -/
theorem eval_negation_eq (left right : Expr) :
    (negation (compare .eq left right)).eval v = (compare .ne left right).eval v := by
  rw [negation, compare, compare, eval, eval, eval]
  cases left.eval v with
  | error e => rfl
  | ok a =>
    cases right.eval v <;> rfl

/-- Operands of the same value can be exchanged under an operator. -/
theorem eval_unary_congr {e e' : Expr} (h : e'.eval v = e.eval v) (op : UnaryOp) :
    (unary op e').eval v = (unary op e).eval v := by
  cases op <;> simp only [eval, h]

/-- So they can on both sides of one. -/
theorem eval_binary_congr {left left' right right' : Expr} (hleft : left'.eval v = left.eval v)
    (hright : right'.eval v = right.eval v) (op : BinaryOp) :
    (binary op left' right').eval v = (binary op left right).eval v := by
  cases op <;> simp only [eval, hleft, hright]

/-- The sign that comes back before a constant gives the constant. -/
theorem eval_minus_neg {i : Int64} (h : Int64.minValue < i) :
    (minus (integer (-i))).eval v = .ok (.int i) := by
  refine eval_minus_eq_ok_iff.2 ⟨-i, i, rfl, ?_, rfl⟩
  rw [narrow_eq_ok_iff, Word.toInt_neg h, Int.neg_neg]

/-- What comes back for the two sides of an equality has the value of the equality. -/
theorem eval_equal_readBack {left right : Expr} (hleft : v.RespectsBool left.vars)
    (hright : v.RespectsBool right.vars) (hl : left.readBack.eval v = left.eval v)
    (hr : right.readBack.eval v = right.eval v) :
    (equal left.readBack right.readBack).eval v = (compare .eq left right).eval v := by
  rw [eval_equal]
  · exact eval_binary_congr hl hr _
  · intro hty a ha
    exact exists_bool_of_eval hleft (by rw [← hty, ty_readBack]) (by rw [← ha, hl])
  · intro hty a ha
    exact exists_bool_of_eval hright (by rw [← hty, ty_readBack]) (by rw [← ha, hr])

/-- Equivalences have boolean operands in a formula if they have so in its parts. -/
theorem of_equivBoolean {op : BinaryOp} {left right : Expr}
    (h : (binary op left right).equivBoolean = true) :
    left.equivBoolean = true ∧ right.equivBoolean = true := by
  rw [equivBoolean, Bool.and_eq_true, Bool.and_eq_true] at h
  exact ⟨h.1.2, h.2⟩

/-- **What comes back has the same value**, errors included, if equivalences have boolean
operands. -/
theorem eval_readBack {e : Expr} (h : v.RespectsBool e.vars) (hequiv : e.equivBoolean = true) :
    e.readBack.eval v = e.eval v := by
  fun_induction readBack e with
  | case1 => rfl
  | case2 i hi => exact eval_minus_neg hi.1
  | case3 => rfl
  | case4 => rfl
  | case5 op e ih => exact eval_unary_congr (ih h hequiv) op
  | case6 l r ihl ihr =>
    obtain ⟨hleft, hright⟩ := h.of_append
    obtain ⟨hequivl, hequivr⟩ := of_equivBoolean hequiv
    exact eval_equal_readBack hleft hright (ihl hleft hequivl) (ihr hright hequivr)
  | case7 l r ihl ihr =>
    obtain ⟨hleft, hright⟩ := h.of_append
    obtain ⟨hequivl, hequivr⟩ := of_equivBoolean hequiv
    -- an inequality is evaluated as the negation of the equality that comes back
    have hequal := eval_equal_readBack hleft hright (ihl hleft hequivl) (ihr hright hequivr)
    exact (eval_unary_congr hequal .not).trans (eval_negation_eq l r)
  | case8 l r ihl ihr =>
    obtain ⟨hleft, hright⟩ := h.of_append
    obtain ⟨hequivl, hequivr⟩ := of_equivBoolean hequiv
    -- boolean operands keep their type, so the equivalence comes back as one
    have hbool : (l.readBack.ty.isBool && r.readBack.ty.isBool) = true := by
      rw [equivBoolean, Bool.and_eq_true, Bool.and_eq_true] at hequiv
      rw [ty_readBack, ty_readBack]
      exact hequiv.1.1
    rw [equal, if_pos hbool]
    exact eval_binary_congr (ihl hleft hequivl) (ihr hright hequivr) _
  | case9 op l r _ _ _ ihl ihr =>
    obtain ⟨hleft, hright⟩ := h.of_append
    obtain ⟨hequivl, hequivr⟩ := of_equivBoolean hequiv
    exact eval_binary_congr (ihl hleft hequivl) (ihr hright hequivr) op
  | case10 e target ih => rfl
  | case11 q bound body ih => rfl

end Expr

end Interpolants
