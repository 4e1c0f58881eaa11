import Interpolants.Proofs.Decoding.Image
import Interpolants.Proofs.Encoding.Session

/-!
# Interpolants — sending decoded formulas back

A formula that was decoded over the variables of a session can be encoded in this session, and the
session does not change. Each formula that decoding gives has a term (`Decoded.exists_hasTerm`), so
encoding meets its variables and no obstacle. All of them are declared, and a variable that is
declared already is neither declared again nor told of (`outcome_declare_of_find?`).
-/

namespace Interpolants

/-- A decoded formula has a term. -/
theorem Decoded.exists_hasTerm {declared : Registry} {e : Expr} (h : Decoded declared e) :
    ∃ t, e.HasTerm t := by
  induction h with
  | var h => exact ⟨_, .var _⟩
  | literal b => exact ⟨_, .literal b⟩
  | integer h => exact ⟨_, .integer _⟩
  | negation _ ih =>
    obtain ⟨t, ht⟩ := ih
    exact ⟨_, ht.negation⟩
  | minus _ ih =>
    obtain ⟨t, ht⟩ := ih
    exact ⟨_, ht.minus⟩
  | compare op _ _ ihl ihr =>
    obtain ⟨l, hl⟩ := ihl
    obtain ⟨r, hr⟩ := ihr
    exact ⟨_, hl.compare op hr⟩
  | arith op _ _ ihl ihr =>
    obtain ⟨l, hl⟩ := ihl
    obtain ⟨r, hr⟩ := ihr
    exact ⟨_, hl.arith op hr⟩
  | logic hhead _ _ ihl ihr =>
    obtain ⟨l, hl⟩ := ihl
    obtain ⟨r, hr⟩ := ihr
    exact ⟨_, .logic hhead hl hr⟩

section

variable {enc : Encoder}

/-- Encoding a formula over declared variables gives its term and leaves the session as it is. -/
theorem Decoded.exists_outcome_encode {e : Expr} (h : Decoded enc.declared e) :
    ∃ t, e.HasTerm t ∧ outcome e.encode enc = (.ok t, enc) := by
  obtain ⟨t, hterm⟩ := h.exists_hasTerm
  obtain ⟨t', hencode⟩ := exists_encode_eq e
  have hmeet := outcome_meet_of_declared h.find?_of_mem_vars
  have hrun : outcome e.encode enc = (.ok t', enc) := by
    rw [hencode, hterm.encounters_eq, outcome_bind_of_ok hmeet]
    rfl
  exact ⟨t', (encode_ok hrun).term, hrun⟩

end

namespace EncoderCall

/-- **Decoded formulas can be sent back.** After any calls to an encoder, whatever the texts decoded
over its variables in one session, a formula that one of them gives is made of declared variables,
literals and the operators of terms. Encoding it again gives a term, sends no command and declares
nothing. -/
theorem sends_back_decoded (calls : List EncoderCall) {texts : List String} {e : Expr}
    (h : .ok e ∈ decodeEach (after calls).declared texts) :
    Decoded (after calls).declared e ∧
    (∀ x ∈ e.vars, (after calls).declared.find? x.name = some x) ∧
    ∃ t, e.HasTerm t ∧ (after calls).run e.encode = (.ok t, after calls) := by
  have hdecoded := decoded_of_decodeEach h
  exact ⟨hdecoded, hdecoded.find?_of_mem_vars, hdecoded.exists_outcome_encode⟩

/-- Two calls that fail, the second behind the variable that it declares, and a text that fails with
a let block of its own in the table. -/
theorem sends_back_decoded_mixed :
    let x : Variable := ⟨"x", .int ⟨some 0, none⟩⟩
    let calls := [encode (.logic .implies (.var x) (.literal true)),
      encode (.logic .and (.var x) (.cast (.var x) .bool))]
    let texts := ["(let ((a x)) (not b))", "(let ((a (- x 1))) (>= a (- 9223372036854775808)))"]
    let e := Expr.compare .ge (.arith .minus (.var x) (.integer 1)) (.integer Int64.minValue)
    .ok e ∈ decodeEach (after calls).declared texts ∧ Decoded (after calls).declared e ∧
    (∀ x ∈ e.vars, (after calls).declared.find? x.name = some x) ∧
    ∃ t, e.HasTerm t ∧ (after calls).run e.encode = (.ok t, after calls) := by
  intro x calls texts e
  have h : .ok e ∈ decodeEach (after calls).declared texts := by decide +kernel
  exact ⟨h, sends_back_decoded calls h⟩

end EncoderCall

end Interpolants
