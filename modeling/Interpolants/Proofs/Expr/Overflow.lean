import Interpolants.Proofs.Expr.Exactness
import Interpolants.Proofs.Number.Word

/-!
# Interpolants — when a formula has a value

A well-typed formula has a value exactly if nothing in it is divided by zero, the exact values of
its integer parts all fit in a word, and no remainder is taken where the quotient does not fit
(`eval_ok_iff_fits`). The last condition is about one pair of operands only: the least word divided
by minus one. The remainder there is zero, and evaluation overflows all the same.

From left to right, the operands of a formula with a value have values too, so that each part of it
does, and these values are the exact ones. From right to left the induction is on the well-typed
formula: what it is made of has values, and the exact result of the operation on them fits.
-/

namespace Interpolants

/-! ## Single operations -/

/-- An integer that a word is equal to. -/
def FitsWord (n : Int) : Prop :=
  Int64.minValue.toInt ≤ n ∧ n ≤ Int64.maxValue.toInt

theorem fitsWord_toInt (i : Int64) : FitsWord i.toInt :=
  ⟨i.minValue_le_toInt, i.toInt_le⟩

/-- What fits in a word is narrowed to one. -/
theorem exists_narrow {n : Int} (h : FitsWord n) : ∃ i, narrow n = .ok i := by
  obtain ⟨i, hi⟩ := Word.exists_signed? h.1 h.2
  exact ⟨i, narrow_eq_ok_iff.2 (Word.signed?_eq_some_iff.1 hi)⟩

/-- A quotient of words fits in a word, except that of the least one and minus one. -/
theorem fitsWord_ediv {m n : Int} (hm : FitsWord m)
    (hleast : ¬ (m = Int64.minValue.toInt ∧ n = -1)) : FitsWord (m / n) := by
  have hmin : Int64.minValue.toInt = -2 ^ 63 := rfl
  have hmax : Int64.maxValue.toInt = 2 ^ 63 - 1 := rfl
  have hquotient := Int.natAbs_ediv_le_natAbs m n
  obtain ⟨hlow, hhigh⟩ := hm
  refine ⟨by omega, Int.not_lt.1 fun hover => ?_⟩
  -- only the magnitude of the least word is too large
  have hdividend : m = Int64.minValue.toInt := by omega
  have htop : m / n = 2 ^ 63 := by omega
  have hzero : n ≠ 0 := by
    rintro rfl
    rw [Int.ediv_zero] at htop
    cases htop
  have hsplit := Int.mul_ediv_add_emod m n
  have hrem := Int.emod_nonneg m hzero
  have hrem' := Int.emod_lt m hzero
  rw [htop] at hsplit
  omega

/-- An operation on words has a result if the exact one fits, unless it is the remainder of the
least word and minus one. -/
theorem Arith.exists_apply {op : Arith} {i j : Int64} (hzero : op.divides = true → j.toInt ≠ 0)
    (hfits : FitsWord (op.exact i.toInt j.toInt))
    (hleast : op = .rem → ¬ (i.toInt = Int64.minValue.toInt ∧ j.toInt = -1)) :
    ∃ k, op.apply i j = .ok k := by
  obtain ⟨k, hk⟩ := exists_narrow hfits
  refine ⟨k, ?_⟩
  cases op with
  | plus | minus | mul => exact hk
  | div =>
    rw [apply, if_neg (hzero rfl)]
    exact hk
  | rem =>
    obtain ⟨q, hq⟩ := exists_narrow (fitsWord_ediv (fitsWord_toInt i) (hleast rfl))
    rw [apply, if_neg (hzero rfl), hq]
    exact hk

/-- The quotient of the least word and minus one does not fit, and so the remainder is refused. -/
theorem Arith.not_apply_rem_least {i j k : Int64} (hi : i.toInt = Int64.minValue.toInt)
    (hj : j.toInt = -1) : Arith.rem.apply i j ≠ .ok k := by
  obtain rfl := Int64.toInt_inj.1 hi
  obtain rfl : j = -1 := Int64.toInt_inj.1 hj
  intro h
  cases h

namespace Expr

variable {v : Valuation} {e e' : Expr} {s : Smt.Srt}

/-! ## Parts -/

/-- The exact values of all integer parts fit in words. -/
def PartsFit (v : Valuation) (e : Expr) : Prop :=
  ∀ e' ∈ e.parts, ∀ n, e'.Means v (.int n) → FitsWord n

/-- Somewhere in the formula stands a remainder of the least word and minus one. -/
def SplitsLeast (v : Valuation) (e : Expr) : Prop :=
  ∃ left right, arith .rem left right ∈ e.parts ∧ left.Means v (.int Int64.minValue.toInt) ∧
    right.Means v (.int (-1))

theorem PartsFit.mono (h : e'.PartsFit v) (hparts : e.parts ⊆ e'.parts) : e.PartsFit v :=
  fun part hpart => h part (hparts hpart)

theorem SplitsLeast.mono (h : e.SplitsLeast v) (hparts : e.parts ⊆ e'.parts) :
    e'.SplitsLeast v := by
  obtain ⟨left, right, hmem, hleast⟩ := h
  exact ⟨left, right, hparts hmem, hleast⟩

/-- What evaluation asks of a formula. -/
structure Evaluable (v : Valuation) (e : Expr) : Prop where
  undivided : ¬ e.DividesByZero v
  fits : e.PartsFit v
  unsplit : ¬ e.SplitsLeast v

/-- What evaluation asks of a formula it asks of its parts. -/
theorem Evaluable.mono (h : e'.Evaluable v) (hparts : e.parts ⊆ e'.parts) : e.Evaluable v :=
  ⟨fun hzero => h.undivided (hzero.mono hparts), h.fits.mono hparts,
    fun hleast => h.unsplit (hleast.mono hparts)⟩

theorem mem_parts_unary {op : UnaryOp} (h : e' ∈ (unary op e).parts) :
    e' = unary op e ∨ e' ∈ e.parts :=
  List.mem_cons.1 h

theorem mem_parts_binary {op : BinaryOp} {left right : Expr}
    (h : e' ∈ (binary op left right).parts) :
    e' = binary op left right ∨ e' ∈ left.parts ∨ e' ∈ right.parts :=
  (List.mem_cons.1 h).imp_right List.mem_append.1

/-- A formula that is its only part is no operation. -/
theorem Evaluable.leaf (hparts : e.parts = [e]) (hself : ∀ n, e.Means v (.int n) → FitsWord n)
    (hleaf : ∀ op left right, e ≠ arith op left right) : e.Evaluable v where
  undivided := by
    rintro ⟨op, left, right, hmem, -⟩
    rw [hparts, List.mem_singleton] at hmem
    exact hleaf op left right hmem.symm
  fits := by
    intro part hpart
    rw [hparts, List.mem_singleton] at hpart
    rw [hpart]
    exact hself
  unsplit := by
    rintro ⟨left, right, hmem, -⟩
    rw [hparts, List.mem_singleton] at hmem
    exact hleaf _ left right hmem.symm

/-- A formula with a sign in front can be evaluated if its operand can and its own value fits. -/
theorem Evaluable.unary {op : UnaryOp} (h : e.Evaluable v)
    (hself : ∀ n, (unary op e).Means v (.int n) → FitsWord n) : (unary op e).Evaluable v where
  undivided := by
    rintro ⟨arithOp, left, right, hmem, hzero⟩
    rcases mem_parts_unary hmem with heq | hmem
    · cases heq
    · exact h.undivided ⟨arithOp, left, right, hmem, hzero⟩
  fits := by
    intro part hpart
    rcases mem_parts_unary hpart with rfl | hpart
    · exact hself
    · exact h.fits part hpart
  unsplit := by
    rintro ⟨left, right, hmem, hleast⟩
    rcases mem_parts_unary hmem with heq | hmem
    · cases heq
    · exact h.unsplit ⟨left, right, hmem, hleast⟩

/-- An operation asks of its operands what they ask themselves, and no zero or least word in the
wrong place. -/
theorem Evaluable.binary {op : BinaryOp} {left right : Expr} (hleft : left.Evaluable v)
    (hright : right.Evaluable v) (hself : ∀ n, (binary op left right).Means v (.int n) → FitsWord n)
    (hzero : ∀ op', op = .arith op' → op'.divides = true → ¬ right.Means v (.int 0))
    (hleast : op = .arith .rem → left.Means v (.int Int64.minValue.toInt) →
      ¬ right.Means v (.int (-1))) : (binary op left right).Evaluable v where
  undivided := by
    rintro ⟨op', left', right', hmem, hdivides, hmeans⟩
    rcases mem_parts_binary hmem with heq | hmem | hmem
    · cases heq
      exact hzero op' rfl hdivides hmeans
    · exact hleft.undivided ⟨op', left', right', hmem, hdivides, hmeans⟩
    · exact hright.undivided ⟨op', left', right', hmem, hdivides, hmeans⟩
  fits := by
    intro part hpart
    rcases mem_parts_binary hpart with rfl | hpart | hpart
    · exact hself
    · exact hleft.fits part hpart
    · exact hright.fits part hpart
  unsplit := by
    rintro ⟨left', right', hmem, hmeans, hmeans'⟩
    rcases mem_parts_binary hmem with heq | hmem | hmem
    · cases heq
      exact hleast rfl hmeans hmeans'
    · exact hleft.unsplit ⟨left', right', hmem, hmeans, hmeans'⟩
    · exact hright.unsplit ⟨left', right', hmem, hmeans, hmeans'⟩

/-! ## Formulas with a value -/

/-- The value of a formula is its exact one. -/
theorem HasSort.means_of_eval (h : e.HasSort s) (hv : v.Gives e.vars) {a : Value}
    (heval : e.eval v = .ok a) : ∃ b, a.smt? = some b ∧ b.srt = s ∧ e.Means v b := by
  have hresult := comesTo_of_hasSort h hv
  rw [heval] at hresult
  cases hresult with
  | value hb hs hmeans => exact ⟨_, hb, hs, hmeans⟩

/-- The value of an integer formula is the exact one. -/
theorem HasSort.means_int (h : e.HasSort s) (hv : v.Gives e.vars) {i : Int64}
    (heval : e.eval v = .ok (.int i)) : e.Means v (.int i.toInt) := by
  obtain ⟨b, hb, -, hmeans⟩ := h.means_of_eval hv heval
  cases hb
  exact hmeans

/-- The exact value of a formula that has a value fits in a word. -/
theorem HasSort.fitsWord (h : e.HasSort s) (hv : v.Gives e.vars) {a : Value}
    (heval : e.eval v = .ok a) (n : Int) (hn : e.Means v (.int n)) : FitsWord n := by
  obtain ⟨b, hb, -, hmeans⟩ := h.means_of_eval hv heval
  obtain rfl := hmeans.unique hn
  obtain ⟨i, -, hi⟩ := Value.exists_of_srt_int hb rfl
  cases hi
  exact fitsWord_toInt i

/-- **A formula with a value asks for nothing that is not there**: its parts have values as well. -/
theorem HasSort.evaluable (h : e.HasSort s) (hv : v.Gives e.vars) {a : Value}
    (heval : e.eval v = .ok a) : e.Evaluable v := by
  induction h generalizing a with
  | var hs => exact .leaf rfl ((HasSort.var hs).fitsWord hv heval) nofun
  | literal b => exact .leaf rfl ((HasSort.literal b).fitsWord hv heval) nofun
  | integer i => exact .leaf rfl ((HasSort.integer i).fitsWord hv heval) nofun
  | negation h ih =>
    obtain ⟨p, hp, -⟩ := eval_not_eq_ok_iff.1 heval
    exact (ih hv hp).unary ((HasSort.negation h).fitsWord hv heval)
  | minus h ih =>
    obtain ⟨i, -, hi, -⟩ := eval_minus_eq_ok_iff.1 heval
    exact (ih hv hi).unary ((HasSort.minus h).fitsWord hv heval)
  | equality hop hl hr ihl ihr =>
    obtain ⟨hleft, hright⟩ := hv.of_append
    obtain ⟨l, r, -, hlv, hrv, -⟩ := eval_compare_eq_ok_iff.1 heval
    exact (ihl hleft hlv).binary (ihr hright hrv) ((HasSort.equality hop hl hr).fitsWord hv heval)
      nofun nofun
  | order hop hl hr ihl ihr =>
    obtain ⟨hleft, hright⟩ := hv.of_append
    obtain ⟨l, r, -, hlv, hrv, -⟩ := eval_compare_eq_ok_iff.1 heval
    exact (ihl hleft hlv).binary (ihr hright hrv) ((HasSort.order hop hl hr).fitsWord hv heval)
      nofun nofun
  | logic op hl hr ihl ihr =>
    obtain ⟨hleft, hright⟩ := hv.of_append
    obtain ⟨p, q, hlv, hrv, -⟩ := eval_logic_eq_ok_iff.1 heval
    exact (ihl hleft hlv).binary (ihr hright hrv) ((HasSort.logic op hl hr).fitsWord hv heval)
      nofun nofun
  | arith op hl hr ihl ihr =>
    obtain ⟨hleft, hright⟩ := hv.of_append
    obtain ⟨i, j, k, hlv, hrv, hk, -⟩ := eval_arith_eq_ok_iff.1 heval
    have hmeans := hl.means_int hleft hlv
    have hmeans' := hr.means_int hright hrv
    -- the operation was carried out, so its divisor is not zero and it is not the remainder that
    -- overflows
    refine (ihl hleft hlv).binary (ihr hright hrv)
      ((HasSort.arith op hl hr).fitsWord hv heval) ?_ ?_
    · rintro _ ⟨⟩ hdivides hzero
      exact (Arith.exact_of_apply hk).2 hdivides (Smt.Value.int.inj (hmeans'.unique hzero))
    · rintro ⟨⟩ hleast hone
      exact Arith.not_apply_rem_least (Smt.Value.int.inj (hmeans.unique hleast))
        (Smt.Value.int.inj (hmeans'.unique hone)) hk

/-- A formula of integer sort that has a value has its exact one. -/
theorem HasSort.eval_int (h : e.HasSort .int) (hv : v.Gives e.vars)
    (heval : ∃ a, e.eval v = .ok a) :
    ∃ i : Int64, e.eval v = .ok (.int i) ∧ e.Means v (.int i.toInt) := by
  obtain ⟨a, ha⟩ := heval
  obtain ⟨b, hb, hs, hmeans⟩ := h.means_of_eval hv ha
  obtain ⟨i, rfl, rfl⟩ := Value.exists_of_srt_int hb hs
  exact ⟨i, ha, hmeans⟩

/-- The value of a boolean formula is a boolean. -/
theorem HasSort.eval_bool (h : e.HasSort .bool) (hv : v.Gives e.vars)
    (heval : ∃ a, e.eval v = .ok a) :
    ∃ p, e.eval v = .ok (.bool p) := by
  obtain ⟨a, ha⟩ := heval
  obtain ⟨b, hb, hs, -⟩ := h.means_of_eval hv ha
  obtain ⟨p, rfl, -⟩ := Value.exists_of_srt_bool hb hs
  exact ⟨p, ha⟩

/-- An operation on integers has a value if it asks for nothing that is not there. -/
theorem Evaluable.exists_apply {op : Arith} {left right : Expr} {i j : Int64}
    (h : (arith op left right).Evaluable v) (hmeans : left.Means v (.int i.toInt))
    (hmeans' : right.Means v (.int j.toInt)) : ∃ k, op.apply i j = .ok k := by
  have hmem := mem_parts_self (Expr.arith op left right)
  have hzero : op.divides = true → j.toInt ≠ 0 := fun hdivides hj =>
    h.undivided ⟨op, left, right, hmem, hdivides, hj ▸ hmeans'⟩
  have hfits : FitsWord (op.exact i.toInt j.toInt) :=
    h.fits _ hmem _ (.arith hmeans hmeans' (Arith.computes_iff.2 ⟨hzero, rfl⟩))
  have hleast : op = .rem → ¬ (i.toInt = Int64.minValue.toInt ∧ j.toInt = -1) := by
    rintro rfl ⟨hi, hj⟩
    exact h.unsplit ⟨left, right, hmem, hi ▸ hmeans, hj ▸ hmeans'⟩
  exact Arith.exists_apply hzero hfits hleast

/-- **A formula whose exact values fit has a value.** -/
theorem HasSort.exists_eval (h : e.HasSort s) (hv : v.Gives e.vars) (he : e.Evaluable v) :
    ∃ a, e.eval v = .ok a := by
  induction h with
  | @var x s hs =>
    obtain ⟨a, -, ha, -⟩ := hv x (List.mem_singleton_self x)
    exact ⟨a, eval_var_eq_ok_iff.2 ha⟩
  | literal b => exact ⟨_, rfl⟩
  | integer i => exact ⟨_, rfl⟩
  | negation h ih =>
    obtain ⟨p, hp⟩ := h.eval_bool hv (ih hv (he.mono (parts_unary_subset ..)))
    exact ⟨_, eval_not_eq_ok_iff.2 ⟨p, hp, rfl⟩⟩
  | minus h ih =>
    obtain ⟨i, hi, hmeans⟩ := h.eval_int hv (ih hv (he.mono (parts_unary_subset ..)))
    -- the opposite is an integer part itself, so it fits
    obtain ⟨j, hj⟩ := exists_narrow (he.fits _ (mem_parts_self _) _ (.minus hmeans))
    exact ⟨_, eval_minus_eq_ok_iff.2 ⟨i, j, hi, hj, rfl⟩⟩
  | @equality op hop _ _ _ hl hr ihl ihr =>
    obtain ⟨hleft, hright⟩ := hv.of_append
    obtain ⟨a, ha⟩ := ihl hleft (he.mono (parts_left_subset ..))
    obtain ⟨a', ha'⟩ := ihr hright (he.mono (parts_right_subset ..))
    cases op with
    | eq | ne => exact ⟨_, eval_compare_eq_ok_iff.2 ⟨a, a', _, ha, ha', rfl, rfl⟩⟩
    | ge | gt | le | lt => cases hop
  | order hop hl hr ihl ihr =>
    obtain ⟨hleft, hright⟩ := hv.of_append
    obtain ⟨i, hi, -⟩ := hl.eval_int hleft (ihl hleft (he.mono (parts_left_subset ..)))
    obtain ⟨j, hj, -⟩ := hr.eval_int hright (ihr hright (he.mono (parts_right_subset ..)))
    obtain ⟨p, hp, -⟩ := Comparison.apply_order hop i j
    exact ⟨_, eval_compare_eq_ok_iff.2 ⟨_, _, p, hi, hj, hp, rfl⟩⟩
  | arith op hl hr ihl ihr =>
    obtain ⟨hleft, hright⟩ := hv.of_append
    obtain ⟨i, hi, hmeans⟩ := hl.eval_int hleft (ihl hleft (he.mono (parts_left_subset ..)))
    obtain ⟨j, hj, hmeans'⟩ := hr.eval_int hright (ihr hright (he.mono (parts_right_subset ..)))
    -- what may fail is the operation itself, which is a part too
    obtain ⟨k, hk⟩ := he.exists_apply hmeans hmeans'
    exact ⟨_, eval_arith_eq_ok_iff.2 ⟨i, j, k, hi, hj, hk, rfl⟩⟩
  | logic op hl hr ihl ihr =>
    obtain ⟨hleft, hright⟩ := hv.of_append
    obtain ⟨p, hp⟩ := hl.eval_bool hleft (ihl hleft (he.mono (parts_left_subset ..)))
    obtain ⟨q, hq⟩ := hr.eval_bool hright (ihr hright (he.mono (parts_right_subset ..)))
    exact ⟨_, eval_logic_eq_ok_iff.2 ⟨p, q, hp, hq, rfl⟩⟩

end Expr

/-- **What stops evaluation.** Under a valuation that gives the variables of a well-typed formula
values of their sorts, the formula has a value exactly if no divisor in it is zero, the exact values
of its integer parts fit in words, and no remainder of the least word and minus one is taken. -/
theorem eval_ok_iff_fits {e : Expr} {s : Smt.Srt} (h : e.HasSort s) {v : Valuation}
    (hv : v.Gives e.vars) :
    (∃ a, e.eval v = .ok a) ↔ ¬ e.DividesByZero v ∧ e.PartsFit v ∧ ¬ e.SplitsLeast v := by
  constructor
  · rintro ⟨a, ha⟩
    obtain ⟨hundivided, hfits, hunsplit⟩ := h.evaluable hv ha
    exact ⟨hundivided, hfits, hunsplit⟩
  · rintro ⟨hundivided, hfits, hunsplit⟩
    exact h.exists_eval hv ⟨hundivided, hfits, hunsplit⟩

/-- The least word leaves a remainder by minus two, though not by minus one. -/
theorem eval_ok_iff_fits_remainder :
    let x : Variable := ⟨"x", .integer⟩
    let e := Expr.compare .eq (.arith .rem (.var x) (.integer (-2))) (.integer 0)
    let v := Valuation.empty.set "x" (.int Int64.minValue)
    e.HasSort .bool ∧ v.Gives e.vars ∧ e.eval v = .ok (.bool true) ∧ e.PartsFit v := by
  intro x e v
  have hsort : e.HasSort .bool :=
    .equality rfl (.arith .rem (.var rfl) (.integer (-2))) (.integer 0)
  have hv : v.Gives e.vars := by
    intro y hy
    obtain rfl : y = x := List.mem_singleton.1 hy
    exact ⟨.int Int64.minValue, .int Int64.minValue.toInt, rfl, rfl, rfl⟩
  have heval : e.eval v = .ok (.bool true) := rfl
  exact ⟨hsort, hv, heval, ((eval_ok_iff_fits hsort hv).1 ⟨_, heval⟩).2.1⟩

/-- **A remainder that fits may overflow.** The least word leaves no remainder when it is divided by
minus one, and every exact value fits; but the quotient would not, and evaluation fails. -/
theorem eval_remainder_overflow :
    let x : Variable := ⟨"x", .integer⟩
    let e := Expr.compare .eq (.arith .rem (.var x) (.integer (-1))) (.integer 0)
    let v := Valuation.empty.set "x" (.int Int64.minValue)
    e.HasSort .bool ∧ v.Gives e.vars ∧ ¬ e.DividesByZero v ∧ e.PartsFit v ∧ e.Means v (.bool true) ∧
      e.eval v = .error .overflow := by
  intro x e v
  have hsort : e.HasSort .bool :=
    .equality rfl (.arith .rem (.var rfl) (.integer (-1))) (.integer 0)
  have hv : v.Gives e.vars := by
    intro y hy
    obtain rfl : y = x := List.mem_singleton.1 hy
    exact ⟨.int Int64.minValue, .int Int64.minValue.toInt, rfl, rfl, rfl⟩
  have hx : (Expr.var x).Means v (.int Int64.minValue.toInt) := .var rfl rfl
  have hone : (Expr.integer (-1)).Means v (.int (-1)) := .integer (-1)
  have hzero : (Expr.integer 0).Means v (.int 0) := .integer 0
  have hrem : (Expr.arith .rem (.var x) (.integer (-1))).Means v (.int 0) :=
    .arith hx hone (Arith.computes_iff.2 ⟨fun _ => by decide, rfl⟩)
  have hmeans : e.Means v (.bool true) := .equal hrem hzero (by simp)
  have hparts : e.parts = [e, .arith .rem (.var x) (.integer (-1)), .var x, .integer (-1),
      .integer 0] :=
    rfl
  refine ⟨hsort, hv, ?_, ?_, hmeans, rfl⟩
  · -- the only divisor is minus one
    rintro ⟨op, left, right, hmem, -, hdivisor⟩
    simp only [hparts, List.mem_cons, List.not_mem_nil, or_false] at hmem
    rcases hmem with heq | heq | heq | heq | heq
    · obtain ⟨⟩ : Expr.arith op left right = .compare .eq _ _ := heq
    · cases heq
      cases hone.unique hdivisor
    · cases heq
    · cases heq
    · cases heq
  -- the remainder is zero, and all the other integers are words of the text
  · intro part hpart n hn
    simp only [hparts, List.mem_cons, List.not_mem_nil, or_false] at hpart
    rcases hpart with rfl | rfl | rfl | rfl | rfl
    · cases hmeans.unique hn
    · cases hrem.unique hn
      exact fitsWord_toInt 0
    · cases hx.unique hn
      exact fitsWord_toInt Int64.minValue
    · cases hone.unique hn
      exact fitsWord_toInt (-1)
    · cases hzero.unique hn
      exact fitsWord_toInt 0

end Interpolants
