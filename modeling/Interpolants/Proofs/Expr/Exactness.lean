import Interpolants.Proofs.Expr.Eval
import Interpolants.Proofs.Expr.Typing

/-!
# Interpolants — evaluation is exact

What a well-typed formula means is stated here without words and without errors: `Expr.Means` gives
it a value over the integers of any size, by one rule for each construct, and `Expr.Means.unique`
says that there is at most one. A division by zero means nothing.

Evaluation computes with words and may fail. The invariant of the induction over a well-typed
formula is `Expr.ComesTo`: a result is the exact value, a division by zero is one, and nothing else
stops it but an overflow.
-/

namespace Interpolants

/-! ## Exact values -/

/-- Whether two integers stand in the relation of a comparison. -/
def Comparison.Relates : Comparison → Int → Int → Prop
  | .eq, m, n => m = n
  | .ne, m, n => m ≠ n
  | .ge, m, n => n ≤ m
  | .gt, m, n => n < m
  | .le, m, n => m ≤ n
  | .lt, m, n => m < n

/-- What a connective says of two propositions. -/
def Connective.Says : Connective → Prop → Prop → Prop
  | .and, p, q => p ∧ q
  | .or, p, q => p ∨ q
  | .equiv, p, q => p ↔ q
  | .implies, p, q => p → q
  | .xor, p, q => ¬ (p ↔ q)

/-- The results of integer operations. The remainder of a division is not negative and less than the
absolute value of the divisor, whatever the signs; so there is none by zero. -/
inductive Arith.Computes : Arith → Int → Int → Int → Prop where
  | plus (m n : Int) : Computes .plus m n (m + n)
  | minus (m n : Int) : Computes .minus m n (m - n)
  | mul (m n : Int) : Computes .mul m n (m * n)
  | quotient {m n q r : Int} (heq : m = n * q + r) (hlow : 0 ≤ r) (hhigh : r < n.natAbs) :
      Computes .div m n q
  | remainder {m n q r : Int} (heq : m = n * q + r) (hlow : 0 ≤ r) (hhigh : r < n.natAbs) :
      Computes .rem m n r

/-- There is one way to divide. -/
theorem ediv_emod_of_remainder {m n q r : Int} (heq : m = n * q + r) (hlow : 0 ≤ r)
    (hhigh : r < n.natAbs) : n ≠ 0 ∧ m / n = q ∧ m % n = r := by
  have hzero : n ≠ 0 := by omega
  have hsmall : r % n = r := by
    rcases Int.lt_or_gt_of_ne hzero with hneg | hpos
    · rw [← Int.emod_neg, Int.emod_eq_of_lt hlow (by omega)]
    · exact Int.emod_eq_of_lt hlow (by omega)
  have hrem : m % n = r := by
    rw [heq, Int.add_comm, Int.add_mul_emod_self_left, hsmall]
  -- with the same remainder the quotients are the same
  have hdivision : n * (m / n) = n * q := by
    have := Int.mul_ediv_add_emod m n
    omega
  exact ⟨hzero, Int.eq_of_mul_eq_mul_left hzero hdivision, hrem⟩

/-- Dividing so is what evaluation does. -/
theorem Arith.computes_iff {op : Arith} {m n k : Int} :
    op.Computes m n k ↔ (op.divides = true → n ≠ 0) ∧ k = op.exact m n := by
  constructor
  · rintro (_ | _ | _ | ⟨heq, hlow, hhigh⟩ | ⟨heq, hlow, hhigh⟩)
    · exact ⟨nofun, rfl⟩
    · exact ⟨nofun, rfl⟩
    · exact ⟨nofun, rfl⟩
    · obtain ⟨hzero, hq, -⟩ := ediv_emod_of_remainder heq hlow hhigh
      exact ⟨fun _ => hzero, hq.symm⟩
    · obtain ⟨hzero, -, hr⟩ := ediv_emod_of_remainder heq hlow hhigh
      exact ⟨fun _ => hzero, hr.symm⟩
  · -- the quotient and the remainder of euclidean division are as asked
    rintro ⟨hzero, rfl⟩
    cases op with
    | plus => exact .plus m n
    | minus => exact .minus m n
    | mul => exact .mul m n
    | div =>
      exact .quotient (Int.mul_ediv_add_emod m n).symm (Int.emod_nonneg m (hzero rfl))
        (Int.emod_lt m (hzero rfl))
    | rem =>
      exact .remainder (Int.mul_ediv_add_emod m n).symm (Int.emod_nonneg m (hzero rfl))
        (Int.emod_lt m (hzero rfl))

namespace Expr

/-- The exact value of a formula, over booleans and the integers of any size. -/
inductive Means (v : Valuation) : Expr → Smt.Value → Prop where
  | var {x : Variable} {a : Value} {b : Smt.Value} (ha : v x.name = some a) (hb : a.smt? = some b) :
      Means v (.var x) b
  | literal (b : Bool) : Means v (literal b) (.bool b)
  | integer (i : Int64) : Means v (integer i) (.int i.toInt)
  | negation {e : Expr} {p : Bool} (h : Means v e (.bool p)) : Means v (negation e) (.bool !p)
  | minus {e : Expr} {n : Int} (h : Means v e (.int n)) : Means v (minus e) (.int (-n))
  | equal {left right : Expr} {a b : Smt.Value} {p : Bool} (hl : Means v left a)
      (hr : Means v right b) (hp : p = true ↔ a = b) : Means v (compare .eq left right) (.bool p)
  | differ {left right : Expr} {a b : Smt.Value} {p : Bool} (hl : Means v left a)
      (hr : Means v right b) (hp : p = true ↔ a ≠ b) : Means v (compare .ne left right) (.bool p)
  | order {op : Comparison} (hop : op.equates = false) {left right : Expr} {m n : Int} {p : Bool}
      (hl : Means v left (.int m)) (hr : Means v right (.int n)) (hp : p = true ↔ op.Relates m n) :
      Means v (compare op left right) (.bool p)
  | arith {op : Arith} {left right : Expr} {m n k : Int} (hl : Means v left (.int m))
      (hr : Means v right (.int n)) (hk : op.Computes m n k) :
      Means v (arith op left right) (.int k)
  | logic {op : Connective} {left right : Expr} {p q b : Bool} (hl : Means v left (.bool p))
      (hr : Means v right (.bool q)) (hb : b = true ↔ op.Says (p = true) (q = true)) :
      Means v (logic op left right) (.bool b)

/-- **A formula has at most one exact value.** -/
theorem Means.unique {v : Valuation} {e : Expr} {a b : Smt.Value} (ha : e.Means v a)
    (hb : e.Means v b) : a = b := by
  -- the form of the formula leaves one rule for the other value, and the operator one of three in
  -- comparisons
  induction ha generalizing b with
  | var hx hsmt =>
    cases hb with
    | var hx' hsmt' =>
      rw [hx, Option.some.injEq] at hx'
      rw [← hx', hsmt, Option.some.injEq] at hsmt'
      exact hsmt'
  | literal => cases hb; rfl
  | integer => cases hb; rfl
  | negation _ ih =>
    cases hb with
    | negation h => cases ih h; rfl
  | minus _ ih =>
    cases hb with
    | minus h => cases ih h; rfl
  | equal _ _ hp ihl ihr =>
    cases hb with
    | equal hl hr hp' =>
      cases ihl hl
      cases ihr hr
      rw [Bool.eq_iff_iff.2 (hp.trans hp'.symm)]
    | order hop => cases hop
  | differ _ _ hp ihl ihr =>
    cases hb with
    | differ hl hr hp' =>
      cases ihl hl
      cases ihr hr
      rw [Bool.eq_iff_iff.2 (hp.trans hp'.symm)]
    | order hop => cases hop
  | order hop _ _ hp ihl ihr =>
    cases hb with
    | equal | differ => cases hop
    | order _ hl hr hp' =>
      cases ihl hl
      cases ihr hr
      rw [Bool.eq_iff_iff.2 (hp.trans hp'.symm)]
  | arith _ _ hk ihl ihr =>
    cases hb with
    | arith hl hr hk' =>
      cases ihl hl
      cases ihr hr
      rw [(Arith.computes_iff.1 hk).2, (Arith.computes_iff.1 hk').2]
  | logic _ _ hp ihl ihr =>
    cases hb with
    | logic hl hr hp' =>
      cases ihl hl
      cases ihr hr
      rw [Bool.eq_iff_iff.2 (hp.trans hp'.symm)]

/-! ## Parts of formulas -/

/-- A formula and all that it is made of. -/
def parts : Expr → List Expr
  | .var x => [.var x]
  | .const c => [.const c]
  | .unary op e => .unary op e :: e.parts
  | .binary op left right => .binary op left right :: (left.parts ++ right.parts)
  | .cast e target => .cast e target :: e.parts
  | .quantified q bound body => .quantified q bound body :: body.parts

theorem mem_parts_self (e : Expr) : e ∈ e.parts := by
  cases e <;> simp [parts]

/-- Somewhere in the formula the divisor of a division is zero. -/
def DividesByZero (v : Valuation) (e : Expr) : Prop :=
  ∃ op left right, arith op left right ∈ e.parts ∧ op.divides = true ∧ right.Means v (.int 0)

/-- A formula divides by zero if a part of it does. -/
theorem DividesByZero.mono {v : Valuation} {e e' : Expr} (h : e.DividesByZero v)
    (hparts : e.parts ⊆ e'.parts) : e'.DividesByZero v := by
  obtain ⟨op, left, right, hmem, hrest⟩ := h
  exact ⟨op, left, right, hparts hmem, hrest⟩

theorem parts_unary_subset (op : UnaryOp) (e : Expr) : e.parts ⊆ (unary op e).parts :=
  List.subset_cons_self ..

theorem parts_left_subset (op : BinaryOp) (left right : Expr) :
    left.parts ⊆ (binary op left right).parts :=
  List.subset_cons_of_subset _ (List.subset_append_left ..)

theorem parts_right_subset (op : BinaryOp) (left right : Expr) :
    right.parts ⊆ (binary op left right).parts :=
  List.subset_cons_of_subset _ (List.subset_append_right ..)

end Expr

/-! ## Single operations -/

/-- A number that does not fit in a word overflows. -/
theorem narrow_cases (n : Int) :
    (∃ i : Int64, narrow n = .ok i ∧ i.toInt = n) ∨ narrow n = .error .overflow := by
  unfold narrow
  split
  · next i hi => exact .inl ⟨i, rfl, Word.signed?_eq_some_iff.1 hi⟩
  · exact .inr rfl

/-- An operation on words computes the exact result, divides by zero or overflows. -/
theorem Arith.apply_cases (op : Arith) (i j : Int64) :
    (∃ k : Int64, op.apply i j = .ok k ∧ op.Computes i.toInt j.toInt k.toInt) ∨
      (op.apply i j = .error .divisionByZero ∧ op.divides = true ∧ j.toInt = 0) ∨
      op.apply i j = .error .overflow := by
  cases h : op.apply i j with
  | ok k =>
    obtain ⟨hexact, hzero⟩ := exact_of_apply h
    exact .inl ⟨k, rfl, computes_iff.2 ⟨hzero, hexact⟩⟩
  | error e =>
    refine .inr ?_
    -- an error is that of the divisor or that of narrowing
    have hnarrow : ∀ {n : Int}, narrow n = .error e → e = .overflow := by
      intro n hn
      rcases narrow_cases n with ⟨i, hi, -⟩ | hover
      · rw [hi] at hn
        cases hn
      · rw [hover] at hn
        cases hn
        rfl
    cases op with
    | plus | minus | mul => exact .inr (by rw [hnarrow h])
    | div =>
      rw [apply] at h
      split at h
      · next hzero =>
        cases h
        exact .inl ⟨rfl, rfl, hzero⟩
      · exact .inr (by rw [hnarrow h])
    | rem =>
      rw [apply] at h
      split at h
      · next hzero =>
        cases h
        exact .inl ⟨rfl, rfl, hzero⟩
      · refine .inr ?_
        rcases narrow_cases (i.toInt / j.toInt) with ⟨q, hq, -⟩ | hover
        · rw [hq] at h
          rw [hnarrow (show narrow _ = .error e from h)]
        · rw [hover] at h
          cases h
          rfl

/-- Integers are ordered as the words that stand for them. -/
theorem Comparison.apply_order {op : Comparison} (hop : op.equates = false) (i j : Int64) :
    ∃ p, op.apply (.int i) (.int j) = .ok p ∧ (p = true ↔ op.Relates i.toInt j.toInt) := by
  cases op with
  | eq | ne => cases hop
  | ge | le => exact ⟨_, rfl, by rw [decide_eq_true_iff, Int64.le_iff_toInt_le]; rfl⟩
  | gt | lt => exact ⟨_, rfl, by rw [decide_eq_true_iff, Int64.lt_iff_toInt_lt]; rfl⟩

theorem Connective.apply_iff (op : Connective) (p q : Bool) :
    op.apply p q = true ↔ op.Says (p = true) (q = true) := by
  cases op <;> cases p <;> cases q <;> simp [apply, Says]

/-! ## Evaluation -/

/-- A valuation gives each of the variables a value of its sort. -/
def Valuation.Gives (v : Valuation) (vars : List Variable) : Prop :=
  ∀ x ∈ vars, ∃ a b, v x.name = some a ∧ a.smt? = some b ∧ x.ty.srt? = some b.srt

theorem Valuation.Gives.of_append {v : Valuation} {xs ys : List Variable}
    (h : v.Gives (xs ++ ys)) : v.Gives xs ∧ v.Gives ys :=
  List.forall_mem_append.1 h

/-- A value of the sort of integers is a word. -/
theorem Value.exists_of_srt_int {a : Value} {b : Smt.Value} (h : a.smt? = some b)
    (hs : b.srt = .int) : ∃ i : Int64, a = .int i ∧ b = .int i.toInt := by
  cases a <;> cases h
  · cases hs
  · exact ⟨_, rfl, rfl⟩

/-- A value of the sort of booleans is one. -/
theorem Value.exists_of_srt_bool {a : Value} {b : Smt.Value} (h : a.smt? = some b)
    (hs : b.srt = .bool) : ∃ p, a = .bool p ∧ b = .bool p := by
  cases a <;> cases h
  · exact ⟨_, rfl, rfl⟩
  · cases hs

namespace Expr

/-- How the evaluation of a formula of a sort may end. -/
inductive ComesTo (v : Valuation) (e : Expr) (s : Smt.Srt) : Except EvalError Value → Prop where
  | value {a : Value} {b : Smt.Value} (hb : a.smt? = some b) (hs : b.srt = s) (h : e.Means v b) :
      ComesTo v e s (.ok a)
  | divisionByZero (h : e.DividesByZero v) : ComesTo v e s (.error .divisionByZero)
  | overflow : ComesTo v e s (.error .overflow)

namespace ComesTo

variable {v : Valuation} {e e' : Expr} {s s' : Smt.Srt} {result : Except EvalError Value}

/-- The evaluation of a formula goes on with the exact value of a part, or ends as that of the
part. -/
theorem bind (h : e.ComesTo v s result) (hparts : e.parts ⊆ e'.parts)
    {next : Value → Except EvalError Value}
    (hnext : ∀ a b, a.smt? = some b → b.srt = s → e.Means v b → e'.ComesTo v s' (next a)) :
    e'.ComesTo v s' (result >>= next) := by
  cases h with
  | @value a b hb hs h => exact hnext a b hb hs h
  | divisionByZero h => exact .divisionByZero (h.mono hparts)
  | overflow => exact .overflow

/-- Evaluation goes on behind an integer part with the exact value of this part. -/
theorem bind_asInt (h : e.ComesTo v .int result) (hparts : e.parts ⊆ e'.parts)
    {next : Int64 → Except EvalError Value}
    (hnext : ∀ i, e.Means v (.int i.toInt) → e'.ComesTo v s' (next i)) :
    e'.ComesTo v s' (result >>= fun a => a.asInt >>= next) := by
  refine h.bind hparts fun a b hb hs hmeans => ?_
  obtain ⟨i, rfl, rfl⟩ := Value.exists_of_srt_int hb hs
  exact hnext i hmeans

/-- Evaluation goes on behind a boolean part with the exact value of this part. -/
theorem bind_asBool (h : e.ComesTo v .bool result) (hparts : e.parts ⊆ e'.parts)
    {next : Bool → Except EvalError Value}
    (hnext : ∀ p, e.Means v (.bool p) → e'.ComesTo v s' (next p)) :
    e'.ComesTo v s' (result >>= fun a => a.asBool >>= next) := by
  refine h.bind hparts fun a b hb hs hmeans => ?_
  obtain ⟨p, rfl, rfl⟩ := Value.exists_of_srt_bool hb hs
  exact hnext p hmeans

/-! Operands are evaluated from left to right: where one fails, the formula ends as it does. -/

theorem negation (h : e.ComesTo v .bool (e.eval v)) :
    (Expr.negation e).ComesTo v .bool ((Expr.negation e).eval v) := by
  rw [Expr.negation, eval]
  exact h.bind_asBool (parts_unary_subset .not _) fun p hmeans => .value rfl rfl (.negation hmeans)

/-- A minus sign comes to the exact opposite, or overflows. -/
theorem minus (h : e.ComesTo v .int (e.eval v)) :
    (Expr.minus e).ComesTo v .int ((Expr.minus e).eval v) := by
  rw [Expr.minus, eval]
  refine h.bind_asInt (parts_unary_subset .minus _) fun i hmeans => ?_
  rcases narrow_cases (-i.toInt) with ⟨j, hj, hexact⟩ | hover
  · rw [hj]
    exact .value rfl rfl (hexact ▸ .minus hmeans)
  · rw [hover]
    exact .overflow

variable {left right : Expr}

/-- Values of any two sorts can be compared for equality, and the answer is exact. -/
theorem equality {op : Comparison} (hop : op.equates = true) (hl : left.ComesTo v s (left.eval v))
    (hr : right.ComesTo v s' (right.eval v)) :
    (compare op left right).ComesTo v .bool ((compare op left right).eval v) := by
  rw [compare, eval]
  refine hl.bind (parts_left_subset ..) fun a b hb _ hmeans => ?_
  refine hr.bind (parts_right_subset ..) fun a' b' hb' _ hmeans' => ?_
  have hequal : (a == a') = true ↔ b = b' := by rw [← Value.smt?_beq hb hb', beq_iff_eq]
  cases op with
  | eq => exact .value rfl rfl (.equal hmeans hmeans' hequal)
  | ne =>
    have hdiffer : (a != a') = true ↔ b ≠ b' := by
      rw [bne, Bool.not_eq_true', ← Bool.not_eq_true, hequal]
    exact .value rfl rfl (.differ hmeans hmeans' hdiffer)
  | ge | gt | le | lt => cases hop

/-- Integers are compared exactly. -/
theorem order {op : Comparison} (hop : op.equates = false) (hl : left.ComesTo v .int (left.eval v))
    (hr : right.ComesTo v .int (right.eval v)) :
    (compare op left right).ComesTo v .bool ((compare op left right).eval v) := by
  rw [compare, eval]
  refine hl.bind (parts_left_subset ..) fun a b hb hs hmeans => ?_
  obtain ⟨i, rfl, rfl⟩ := Value.exists_of_srt_int hb hs
  refine hr.bind (parts_right_subset ..) fun a' b' hb' hs' hmeans' => ?_
  obtain ⟨j, rfl, rfl⟩ := Value.exists_of_srt_int hb' hs'
  obtain ⟨p, hp, hrelates⟩ := Comparison.apply_order hop i j
  rw [hp]
  exact .value rfl rfl (.order hop hmeans hmeans' hrelates)

/-- An integer operation comes to the exact result, divides by zero or overflows. -/
theorem arith (op : Arith) (hl : left.ComesTo v .int (left.eval v))
    (hr : right.ComesTo v .int (right.eval v)) :
    (Expr.arith op left right).ComesTo v .int ((Expr.arith op left right).eval v) := by
  rw [Expr.arith, eval]
  refine hl.bind_asInt (parts_left_subset ..) fun i hmeans => ?_
  refine hr.bind_asInt (parts_right_subset ..) fun j hmeans' => ?_
  rcases op.apply_cases i j with ⟨k, hk, hcomputes⟩ | ⟨hk, hdivides, hzero⟩ | hk
  · rw [hk]
    exact .value rfl rfl (.arith hmeans hmeans' hcomputes)
  · rw [hk]
    exact .divisionByZero ⟨op, left, right, mem_parts_self _, hdivides, hzero ▸ hmeans'⟩
  · rw [hk]
    exact .overflow

theorem logic (op : Connective) (hl : left.ComesTo v .bool (left.eval v))
    (hr : right.ComesTo v .bool (right.eval v)) :
    (Expr.logic op left right).ComesTo v .bool ((Expr.logic op left right).eval v) := by
  rw [Expr.logic, eval]
  refine hl.bind_asBool (parts_left_subset ..) fun p hmeans => ?_
  exact hr.bind_asBool (parts_right_subset ..) fun q hmeans' =>
    .value rfl rfl (.logic hmeans hmeans' (op.apply_iff p q))

end ComesTo

/-- **A well-typed formula ends in its exact value**, in a division by zero or in an overflow. -/
theorem comesTo_of_hasSort {v : Valuation} {e : Expr} {s : Smt.Srt} (h : e.HasSort s)
    (hv : v.Gives e.vars) : e.ComesTo v s (e.eval v) := by
  induction h with
  | @var x s hs =>
    obtain ⟨a, b, ha, hb, hsrt⟩ := hv x (List.mem_singleton_self x)
    rw [hs, Option.some.injEq] at hsrt
    rw [eval_var_eq_ok_iff.2 ha]
    exact .value hb hsrt.symm (.var ha hb)
  | literal b => exact .value rfl rfl (.literal b)
  | integer i => exact .value rfl rfl (.integer i)
  | negation _ ih => exact (ih hv).negation
  | minus _ ih => exact (ih hv).minus
  | equality hop _ _ ihl ihr => exact (ihl hv.of_append.1).equality hop (ihr hv.of_append.2)
  | order hop _ _ ihl ihr => exact (ihl hv.of_append.1).order hop (ihr hv.of_append.2)
  | arith op _ _ ihl ihr => exact (ihl hv.of_append.1).arith op (ihr hv.of_append.2)
  | logic op _ _ ihl ihr => exact (ihl hv.of_append.1).logic op (ihr hv.of_append.2)

end Expr

/-- **Evaluation is exact and never stuck.** Under a valuation that gives the variables of a
well-typed formula values of their sorts, evaluation gives a value of the sort of the formula's
type, which is the only exact value of the formula; or it divides by zero, and then the exact value
of a divisor in the formula is zero; or it overflows. -/
theorem eval_exact {e : Expr} {s : Smt.Srt} (h : e.HasSort s) {v : Valuation}
    (hv : v.Gives e.vars) :
    (∃ a b, e.eval v = .ok a ∧ a.smt? = some b ∧ e.ty.srt? = some b.srt ∧
        ∀ b', e.Means v b' ↔ b' = b) ∨
      (e.eval v = .error .divisionByZero ∧ ∃ op left right, .arith op left right ∈ e.parts ∧
        op.divides = true ∧ right.Means v (.int 0)) ∨
      e.eval v = .error .overflow := by
  have hresult := Expr.comesTo_of_hasSort h hv
  generalize e.eval v = result at hresult
  cases hresult with
  | @value a b hb hs hmeans =>
    have hunique : ∀ b', e.Means v b' ↔ b' = b := by
      intro b'
      constructor
      · intro hb'
        exact hb'.unique hmeans
      · rintro rfl
        exact hmeans
    exact .inl ⟨a, b, rfl, hb, hs ▸ h.srt?_ty, hunique⟩
  | divisionByZero hdivides => exact .inr (.inl ⟨rfl, hdivides⟩)
  | overflow => exact .inr (.inr rfl)

/-- A quotient of two negative numbers is rounded up, so that the remainder is not negative. -/
theorem eval_exact_negative :
    let x : Variable := ⟨"x", .int ⟨none, some 0⟩⟩
    let e := Expr.logic .implies (.compare .ne (.var x) (.integer 0))
      (.compare .gt (.arith .div (.integer (-7)) (.var x)) (.integer 3))
    let v := Valuation.empty.set "x" (.int (-2))
    e.HasSort .bool ∧ v.Gives e.vars ∧ e.eval v = .ok (.bool true) ∧ e.Means v (.bool true) := by
  intro x e v
  have hsort : e.HasSort .bool :=
    .logic .implies (.equality rfl (.var rfl) (.integer 0))
      (.order rfl (.arith .div (.integer (-7)) (.var rfl)) (.integer 3))
  have hvars : e.vars = [x, x] := rfl
  have hv : v.Gives e.vars := by
    intro y hy
    obtain rfl : y = x := by simpa [hvars] using hy
    exact ⟨.int (-2), .int (-2), rfl, rfl, rfl⟩
  have heval : e.eval v = .ok (.bool true) := rfl
  rcases eval_exact hsort hv with ⟨a, b, ha, hb, -, hmeans⟩ | ⟨hzero, -⟩ | hover
  · rw [heval] at ha
    cases ha
    cases hb
    exact ⟨hsort, hv, heval, (hmeans _).2 rfl⟩
  · rw [heval] at hzero
    cases hzero
  · rw [heval] at hover
    cases hover

end Interpolants
