import Interpolants.Proofs.Decoding.Operators
import Interpolants.Proofs.Decoding.Scoping
import Interpolants.Proofs.Number.Word
import Interpolants.Proofs.Sexp.Related

/-!
# Interpolants — decoding preserves meaning

A well-sorted term is decoded, and the formula has the term's value wherever it has one. The
argument is one induction over the term that carries its sort, its formula and its value along; the
operators are the subject of `Denotes`, and numerals and names are added here.
-/

namespace Interpolants

variable {declared : Registry} {v : Valuation} {τ : Smt.Srt}

/-! ## Numerals -/

/-- A number that fits a word is decoded to the constant of that value. -/
theorem exists_integer_of_numeral (v : Valuation) {n : UInt64}
    (hn : n.toNat ≤ Int64.maxValue.toInt) :
    ∃ i, Word.signed? n.toNat = some i ∧ Denotes v .int (Expr.integer i) (.int n.toNat) := by
  have hlow : Int64.minValue.toInt ≤ n.toNat := by
    rw [Int64.toInt_minValue]
    omega
  obtain ⟨i, hi⟩ := Word.exists_signed? hlow hn
  refine ⟨i, hi, ?_⟩
  rw [← Word.signed?_eq_some_iff.1 hi]
  exact .integer i

/-- A minus sign before a numeral. The least signed word is no negation of another one. -/
theorem exists_formula_of_negative (v : Valuation) {n : UInt64}
    (hn : Int64.minValue.toInt ≤ -n.toNat) :
    ∃ e, formulas.negative n = some e ∧ Denotes v .int e (.int (-(n.toNat : Int))) := by
  by_cases hleast : n = Word.magnitude Int64.minValue
  · subst hleast
    exact ⟨.integer Int64.minValue, rfl, .integer Int64.minValue⟩
  · have hrange : n.toNat ≤ Int64.maxValue.toInt := by
      have hne : n.toNat ≠ 2 ^ 63 := fun h => hleast (UInt64.toNat_inj.1 h)
      rw [Int64.toInt_minValue] at hn
      rw [Int64.toInt_maxValue]
      omega
    obtain ⟨i, hi, hdenotes⟩ := exists_integer_of_numeral v hrange
    refine ⟨.minus (.integer i), ?_, hdenotes.minus⟩
    show (if _ then _ else _) = _
    rw [if_neg hleast, hi]
    rfl

/-- Sorts, formulas and values of terms belong together. -/
theorem related_denotes (zero : Smt.ByZero) (v : Valuation) :
    Related Smt.sorts formulas (Smt.values zero) (Denotes v) where
  literal b := .literal b
  numeral n τ h := by
    obtain ⟨hn, ⟨⟩⟩ := Option.ite_none_right_eq_some.1 h
    obtain ⟨i, hi, hdenotes⟩ := exists_integer_of_numeral v hn
    exact ⟨.integer i, _, congrArg (Option.map Expr.integer) hi, rfl, hdenotes⟩
  negative n τ h := by
    obtain ⟨hn, ⟨⟩⟩ := Option.ite_none_right_eq_some.1 h
    obtain ⟨e, he, hdenotes⟩ := exists_formula_of_negative v hn
    exact ⟨e, _, he, rfl, hdenotes⟩
  apply _ _ _ hrows h := applies_of_sorts zero hrows h

/-! ## Names -/

/-- A type of the solver is boolean exactly if its sort is. -/
theorem Ty.isBool_iff_of_srt? {ty : Ty} (h : ty.srt? = some τ) : ty.isBool = true ↔ τ = .bool := by
  cases ty <;> cases h <;> simp [Ty.isBool]

/-- A declared variable denotes the value that a valuation gives its name. -/
theorem Valuation.Sorted.relatedNames (hv : v.Sorted declared) :
    RelatedNames (Denotes v) declared.srts (declared.environment.extend []) v.smt := by
  intro name τ h
  obtain ⟨x, hx, hty⟩ := Option.bind_eq_some_iff.1 h
  obtain ⟨a, b, ha, hb, hsort⟩ := hv name x τ hx hty
  have hname := Registry.name_of_find? hx
  refine ⟨.var x, b, ?_, ?_, hsort, Ty.isBool_iff_of_srt? hty, fun a' ha' => ?_⟩
  · show ((declared.find? name).map Expr.var) = _
    rw [hx]
    rfl
  · rw [Valuation.smt, ha]
    exact hb
  · rw [Expr.eval_var_eq_ok_iff, hname, ha] at ha'
    cases ha'
    exact hb

/-- Some valuation of declared variables: every boolean is false and every integer zero. -/
def Registry.zeros (declared : Registry) : Valuation :=
  fun name => (declared.find? name).map fun x => if x.ty.isBool then .bool false else .int 0

/-- The valuation that is zero or false everywhere gives each variable a value of its sort. -/
theorem Registry.zeros_sorted (declared : Registry) : declared.zeros.Sorted declared := by
  intro name x τ hx hty
  rw [Registry.zeros, hx]
  obtain ⟨_, ty⟩ := x
  cases ty <;> cases hty
  · exact ⟨_, .bool false, rfl, rfl, rfl⟩
  · exact ⟨_, .int 0, rfl, rfl, rfl⟩

/-! ## Terms -/

variable {t : Sexp}

/-- A well-sorted term stands for a formula that denotes the term's value. -/
theorem exists_denotes_of_srt? (zero : Smt.ByZero) (hv : v.Sorted declared)
    (h : t.srt? declared = some τ) :
    ∃ e a, t.formula? declared [] = some e ∧ t.smtValue zero v = some a ∧ Denotes v τ e a :=
  Sexp.exists_related_of_interpret (related_denotes zero v) hv.relatedNames t h

/-- **Decoding preserves meaning.** The text of a well-sorted term is decoded, to a formula that is
boolean exactly if the term is. Under every valuation that gives the variables values of their sorts
the term has a value, whatever division by zero gives, and the formula has this value or none. -/
theorem decode_smtValue (declared : Registry) {t : Sexp} (ht : t.Spelled Printable) {τ : Smt.Srt}
    (hsort : t.srt? declared = some τ) :
    ∃ e, decode declared t.render = .ok e ∧ (e.ty = .bool ↔ τ = .bool) ∧
      ∀ (zero : Smt.ByZero) (v : Valuation), v.Sorted declared →
        ∃ a, t.smtValue zero v = some a ∧ ∀ b, e.eval v = .ok b → b.smt? = some a := by
  -- The formula is found under one valuation and then met again under every other.
  obtain ⟨e, _, he, _, hdenotes⟩ := exists_denotes_of_srt? ⟨fun _ => 0, fun _ => 0⟩
    declared.zeros_sorted hsort
  refine ⟨e, ?_, ?_, fun zero v hv => ?_⟩
  · rw [← toOption_eq_some_iff, toOption_decode (ht.mono fun _ hs => hs.plain), he]
  · rw [← Ty.isBool_iff]
    exact hdenotes.ty
  · obtain ⟨e', a, he', ha, hdenotes'⟩ := exists_denotes_of_srt? zero hv hsort
    rw [he] at he'
    cases he'
    exact ⟨a, ha, hdenotes'.value⟩

/-- Chains of both sorts below a let block whose names hide the declared variables. -/
theorem decode_smtValue_chains :
    let declared := (Registry.empty.insert ⟨"x", .integer⟩).insert ⟨"p", .bool⟩
    let t := Sexp.app "let" [
      .list [
        .list [.symbol "x", .app "div" [.symbol "x", .app "-" [leastNumeral]]],
        .list [.symbol "p", .app "=" [.symbol "p", .symbol "true", .app "not" [.symbol "p"]]]],
      .app "or" [
        .symbol "p",
        .app "distinct" [.symbol "x", .numeral 1, .app "-" [.numeral 7, .symbol "x", .numeral 2]]]]
    t.Spelled Printable ∧ t.srt? declared = some .bool ∧
      ∃ e, decode declared t.render = .ok e ∧ (e.ty = .bool ↔ Smt.Srt.bool = .bool) ∧
        ∀ (zero : Smt.ByZero) (v : Valuation), v.Sorted declared →
          ∃ a, t.smtValue zero v = some a ∧ ∀ b, e.eval v = .ok b → b.smt? = some a := by
  intro declared t
  have hspelled : t.Spelled Printable := by decide +kernel
  have hsort : t.srt? declared = some .bool := by decide +kernel
  exact ⟨hspelled, hsort, decode_smtValue declared hspelled hsort⟩

end Interpolants
