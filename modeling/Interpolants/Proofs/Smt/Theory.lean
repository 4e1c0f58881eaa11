import Interpolants.Proofs.Decoding.Lexical
import Interpolants.Proofs.Encoding.Bounds
import Interpolants.Proofs.Outcome
import Interpolants.Proofs.Sexp.Narrowing
import Interpolants.Proofs.Sexp.Related
import Interpolants.Proofs.Smt.Sorts

/-!
# Interpolants — theories of solvers

A solver knows more terms than this library reads: other operators, other numbers of operands,
larger numerals. A `Theory` is any reading of terms, with sorts and values, that agrees with the
library's on the operators of the library. What is decoded is in the common part.
-/

namespace Interpolants

/-- With how many operands an operator is decoded. -/
def Operator.takes : Operator → Nat → Bool
  | .equal, count | .distinct, count | .plus, count | .mul, count => decide (2 ≤ count)
  | .minus, count | .and, count | .or, count => decide (1 ≤ count)
  | .compare _, count | .quotient, count | .remainder, count => count == 2
  | .not, count => count == 1

/-- An operator that is applied takes this number of operands. -/
theorem Operator.takes_of_apply {op : Operator} {es : List Expr} {e : Expr}
    (h : op.apply es = .ok e) : op.takes es.length = true := by
  unfold Operator.apply at h
  -- either the number of operands is fixed by the pattern, or it is compared with the least one
  split at h
  all_goals first
    | rfl
    | cases h
    | split at h
      · exact decide_eq_true (by omega)
      · cases h

/-- A formula is built by an operator that takes this number of operands. -/
theorem exists_takes_of_apply {head : String} {es : List Expr} {e : Expr}
    (h : formulas.apply head es = some e) :
    ∃ op, Operator.ofName? head = some op ∧ op.takes es.length = true := by
  have happly : applyNamed head es = .ok e := toOption_eq_some_iff.1 h
  unfold applyNamed at happly
  split at happly
  · cases happly
  · next op hop =>
    split at happly
    · next hok => exact ⟨op, hop, Operator.takes_of_apply hok⟩
    · cases happly

namespace Smt

/-- A reading of a solver's terms that gives the operators of this library the sorts and values that
they have here. -/
structure Theory (zero : ByZero) (S : Interpretation Srt) (V : Interpretation Value) : Prop where
  computes : Computes zero V
  literal : ∀ b, V.literal b = .bool b
  sort_literal : ∀ b, S.literal b = .bool
  sort_numeral : ∀ n τ, S.numeral n = some τ → τ = .int
  sort_negative : ∀ n τ, S.negative n = some τ → τ = .int
  sort_apply : ∀ head op ss τ, Operator.ofName? head = some op → op.takes ss.length = true →
    S.apply head ss = some τ → Srt.apply head ss = some τ

/-- The values of the standard are a theory. -/
theorem theory_values (zero : ByZero) : Theory zero sorts (values zero) where
  computes := computes_values zero
  literal _ := rfl
  sort_literal _ := rfl
  sort_numeral _ _ h := (Option.some.inj (Option.ite_none_right_eq_some.1 h).2).symm
  sort_negative _ _ h := (Option.some.inj (Option.ite_none_right_eq_some.1 h).2).symm
  sort_apply _ _ _ _ _ _ h := h

namespace Theory

variable {zero : ByZero} {S : Interpretation Srt} {V : Interpretation Value} {t : Sexp}

/-- **A well-sorted term that stands for a formula has the same sort here.** -/
theorem interpret_sorts (h : Theory zero S V) {env : Env Srt} {names : Env Expr} {τ : Srt}
    {e : Expr} (hsort : t.interpret S env = some τ) (he : t.interpret formulas names = some e) :
    t.interpret sorts env = some τ := by
  have hnarrows : Narrows S formulas sorts := by
    refine ⟨fun b => (h.sort_literal b).symm, fun n τ e hτ he => ?_, fun n τ e hτ he => ?_,
      fun head ss es τ e hlength hτ he => ?_⟩
    · obtain rfl := h.sort_numeral n τ hτ
      obtain ⟨i, hi, -⟩ := Option.map_eq_some_iff.1 he
      have hvalue := Word.signed?_eq_some_iff.1 hi
      have hhigh := i.toInt_lt
      refine if_pos ?_
      rw [Int64.toInt_maxValue]
      omega
    · obtain rfl := h.sort_negative n τ hτ
      refine if_pos ?_
      rw [Int64.toInt_minValue]
      -- the least word has a magnitude of its own, every other one that of a positive word
      by_cases hleast : n = Word.magnitude Int64.minValue
      · rw [hleast, Word.toNat_magnitude, Int64.toInt_minValue]
        decide
      · have he : (if n = Word.magnitude Int64.minValue then _ else _) = some e := he
        rw [if_neg hleast] at he
        obtain ⟨i, hi, -⟩ := Option.bind_eq_some_iff.1 he
        have hvalue := Word.signed?_eq_some_iff.1 hi
        have hhigh := i.toInt_lt
        omega
    -- an operator that gives a formula takes as many operands as it has in the theory
    · obtain ⟨op, hop, htakes⟩ := exists_takes_of_apply he
      rw [← hlength] at htakes
      exact h.sort_apply head op ss τ hop htakes hτ
  exact Sexp.interpret_of_narrows hnarrows t hsort he

/-- A term that has a value here has the same value in the theory. -/
theorem interpret_values (h : Theory zero S V) {env : Env Value} {a : Value}
    (ha : t.interpret (values zero) env = some a) : t.interpret V env = some a := by
  have hrelated : Related (values zero) V V fun a b c => b = a ∧ c = a := by
    refine ⟨fun b => ⟨h.literal b, h.literal b⟩, fun n a hn => ?_, fun n a hn => ?_,
      fun head rows a hrows ha => ?_⟩
    · cases hn
      exact ⟨_, _, h.computes.numeral n, h.computes.numeral n, rfl, rfl⟩
    · cases hn
      exact ⟨_, _, h.computes.negative n, h.computes.negative n, rfl, rfl⟩
    · have hleft : rows.map (·.2.1) = rows.map (·.1) :=
        List.map_congr_left fun row hrow => (hrows row hrow).1
      have hright : rows.map (·.2.2) = rows.map (·.1) :=
        List.map_congr_left fun row hrow => (hrows row hrow).2
      -- equal arguments have equal values
      have hvalue := h.computes.apply ha
      rw [hleft, hright]
      exact ⟨a, a, hvalue, hvalue, rfl, rfl⟩
  have hnames : RelatedNames (fun a b c => b = a ∧ c = a) env env env :=
    fun name a ha => ⟨a, a, ha, ha, rfl, rfl⟩
  obtain ⟨b, -, hb, -, rfl, -⟩ := Sexp.exists_related_of_interpret hrelated hnames t ha
  exact hb

end Theory

end Smt

end Interpolants
