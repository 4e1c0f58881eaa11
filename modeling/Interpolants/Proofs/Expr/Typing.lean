import Interpolants.Proofs.Encoding.Term
import Interpolants.Proofs.Smt.Sorts

/-!
# Interpolants — well-typed formulas

A formula is well-typed if every operator has operands of the sorts that it works on: booleans for
connectives, integers for arithmetic and for the order, two operands of one sort for equalities.
Then it has the sort of its type (`Expr.HasSort.srt?_ty`), and so at most one. Casts, quantifiers
and bitvectors have no sort.

A connective without a name of the solver's is well-typed all the same: it has a value, and only
encoding refuses it. A well-typed formula without such connectives has a term
(`Expr.HasSort.exists_hasTerm`).
-/

namespace Interpolants

/-- Whether a comparison is one of equality, which compares values of any sort. -/
def Comparison.equates : Comparison → Bool
  | .eq | .ne => true
  | .ge | .gt | .le | .lt => false

namespace Expr

/-- A formula is well-typed and of a sort. -/
inductive HasSort : Expr → Smt.Srt → Prop where
  | var {x : Variable} {s : Smt.Srt} (h : x.ty.srt? = some s) : HasSort (.var x) s
  | literal (b : Bool) : HasSort (literal b) .bool
  | integer (i : Int64) : HasSort (integer i) .int
  | negation {e : Expr} (h : HasSort e .bool) : HasSort (negation e) .bool
  | minus {e : Expr} (h : HasSort e .int) : HasSort (minus e) .int
  | equality {op : Comparison} (hop : op.equates = true) {left right : Expr} {s : Smt.Srt}
      (hl : HasSort left s) (hr : HasSort right s) : HasSort (compare op left right) .bool
  | order {op : Comparison} (hop : op.equates = false) {left right : Expr}
      (hl : HasSort left .int) (hr : HasSort right .int) : HasSort (compare op left right) .bool
  | arith (op : Arith) {left right : Expr} (hl : HasSort left .int) (hr : HasSort right .int) :
      HasSort (arith op left right) .int
  | logic (op : Connective) {left right : Expr} (hl : HasSort left .bool)
      (hr : HasSort right .bool) : HasSort (logic op left right) .bool

namespace HasSort

variable {e : Expr} {s : Smt.Srt}

/-- The sort of a well-typed formula is that of its type. -/
theorem srt?_ty (h : e.HasSort s) : e.ty.srt? = some s := by
  induction h with
  | var h => exact h
  | minus _ ih => exact ih
  | arith _ _ _ ihl _ => exact ihl
  | literal | integer | negation | equality | order | logic => rfl

/-- The sort of a formula is boolean exactly if its type is. -/
theorem eq_bool_iff (h : e.HasSort s) : s = .bool ↔ e.ty = .bool := by
  have hty := h.srt?_ty
  constructor
  · rintro rfl
    cases he : e.ty <;> rw [he] at hty <;> first | rfl | cases hty
  · intro he
    rw [he] at hty
    exact (Option.some.inj hty).symm

end HasSort

/-- The connectives in a formula. -/
def connectives : Expr → List Connective
  | .var _ | .const _ => []
  | .unary _ e | .cast e _ | .quantified _ _ e => e.connectives
  | .binary (.logic op) left right => op :: (left.connectives ++ right.connectives)
  | .binary _ left right => left.connectives ++ right.connectives

/-- Whether all connectives in a formula have a name of the solver's. -/
def Named (e : Expr) : Prop :=
  ∀ op ∈ e.connectives, ∃ head, op.head? = some head

/-- **A well-typed formula has a term**, if its connectives have names. -/
theorem HasSort.exists_hasTerm {e : Expr} {s : Smt.Srt} (h : e.HasSort s) (hnamed : e.Named) :
    ∃ t, e.HasTerm t := by
  induction h with
  | var => exact ⟨_, .var _⟩
  | literal b => exact ⟨_, .literal b⟩
  | integer i => exact ⟨_, .integer i⟩
  | negation _ ih =>
    obtain ⟨t, ht⟩ := ih hnamed
    exact ⟨_, .negation ht⟩
  | minus _ ih =>
    obtain ⟨t, ht⟩ := ih hnamed
    exact ⟨_, .minus ht⟩
  | @equality op _ _ _ _ _ _ ihl ihr | @order op _ _ _ _ _ ihl ihr =>
    obtain ⟨hleft, hright⟩ := List.forall_mem_append.1 hnamed
    obtain ⟨l, hl⟩ := ihl hleft
    obtain ⟨r, hr⟩ := ihr hright
    exact ⟨_, .compare op hl hr⟩
  | arith op _ _ ihl ihr =>
    obtain ⟨hleft, hright⟩ := List.forall_mem_append.1 hnamed
    obtain ⟨l, hl⟩ := ihl hleft
    obtain ⟨r, hr⟩ := ihr hright
    exact ⟨_, .arith op hl hr⟩
  | logic op _ _ ihl ihr =>
    -- a connective may have no counterpart, so its head is asked for
    obtain ⟨⟨head, hhead⟩, hoperands⟩ := List.forall_mem_cons.1 hnamed
    obtain ⟨hleft, hright⟩ := List.forall_mem_append.1 hoperands
    obtain ⟨l, hl⟩ := ihl hleft
    obtain ⟨r, hr⟩ := ihr hright
    exact ⟨_, .logic hhead hl hr⟩

end Expr

end Interpolants
