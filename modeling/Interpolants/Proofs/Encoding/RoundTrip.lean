import Interpolants.Proofs.Decoding.Scoping
import Interpolants.Proofs.Encoding.ReadBack

/-!
# Interpolants — sending a formula and reading it back

The encoder, the printer of s-expressions and the decoder fit together: the printed term of a
formula, decoded over the variables that encoding has declared, is `Expr.readBack` of the formula.
The term has no let block, so one induction over the formula relates it to what it stands for
(`interpret_of_hasTerm`); the rest is reading printed terms.
-/

namespace Interpolants

open Sexp

/-! ## Names that can be read back -/

/-- A name that is legible as a symbol and no literal. -/
def Readable (name : String) : Prop :=
  Legible name ∧ name ≠ "true" ∧ name ≠ "false"

instance : DecidablePred Readable :=
  fun name => inferInstanceAs (Decidable (Legible name ∧ _))

/-- The words of the language are legible. -/
theorem legible_of_mem {word : String} (h : word ∈ "true" :: "false" :: operatorNames) :
    Legible word := by
  have hwords : ∀ word ∈ "true" :: "false" :: operatorNames, Printable word := by decide +kernel
  exact (hwords word h).plain.1

/-! ## The printed term -/

/-- A term that is printed so that it can be read as it stands. -/
structure Sexp.Written (t : Sexp) : Prop where
  spelled : t.Spelled Legible
  free : t.LetFree

theorem written_symbol {name : String} (h : Legible name) : (symbol name).Written :=
  ⟨.symbol h, .atom _⟩

theorem written_numeral (n : UInt64) : (numeral n).Written :=
  ⟨.numeral n, .atom _⟩

/-- An operator is written in front of its written arguments. -/
theorem written_app {head : String} {args : List Sexp} (hhead : head ∈ operatorNames)
    (hargs : ∀ t ∈ args, t.Written) : (app head args).Written := by
  have hitems : ∀ t ∈ symbol head :: args, t.Written := by
    intro t ht
    rcases List.mem_cons.1 ht with rfl | ht
    · exact written_symbol (legible_of_mem (by simp [hhead]))
    · exact hargs t ht
  have hlet : isLet (symbol head :: args) = false := by
    have hne : head ≠ "let" := by
      rintro rfl
      exact absurd hhead (by decide)
    cases args with
    | nil => rfl
    | cons => exact beq_false_of_ne hne
  exact ⟨.list fun t ht => (hitems t ht).spelled, .list hlet fun t ht => (hitems t ht).free⟩

/-- The printed term of a formula with legible names can be read as it stands. -/
theorem written_of_hasTerm {e : Expr} {t : Sexp} (h : e.HasTerm t)
    (hnames : ∀ x ∈ e.vars, Legible x.name) : t.Written := by
  induction h with
  | var x => exact written_symbol (hnames x (List.mem_singleton_self x))
  | literal b => exact written_symbol (legible_of_mem (by cases b <;> simp))
  | integer i =>
    unfold intTerm
    split
    · exact written_app (by decide) (by simpa using written_numeral _)
    · exact written_numeral _
  | negation _ ih => exact written_app (by decide) (by simpa using ih hnames)
  | minus _ ih => exact written_app (by decide) (by simpa using ih hnames)
  | compare op _ _ ihl ihr =>
    obtain ⟨hl, hr⟩ := List.forall_mem_append.1 hnames
    -- an inequality is written with the equality inside, the others with their own sign
    have hpair : ∀ {head : String}, head ∈ operatorNames → (app head [_, _]).Written :=
      fun hhead => written_app hhead (by simpa using ⟨ihl hl, ihr hr⟩)
    cases op with
    | ne => exact written_app (by decide) (by simpa using hpair (by decide))
    | eq | ge | gt | le | lt => exact hpair (by decide)
  | arith op _ _ ihl ihr =>
    obtain ⟨hl, hr⟩ := List.forall_mem_append.1 hnames
    exact written_app (by cases op <;> decide) (by simpa using ⟨ihl hl, ihr hr⟩)
  | @logic op head hhead _ _ _ _ _ _ ihl ihr =>
    obtain ⟨hl, hr⟩ := List.forall_mem_append.1 hnames
    exact written_app (by cases op <;> cases hhead <;> decide) (by simpa using ⟨ihl hl, ihr hr⟩)

/-! ## What the term stands for -/

section

variable {env : Env Expr}

/-- An application to terms that stand for formulas is read as its operator applied to them. The
least signed word is no obstacle, since its magnitude alone stands for nothing. -/
theorem interpret_app_of_some {head : String} (hhead : head ∈ operatorNames) {args : List Sexp}
    {operands : List Expr} (hargs : interpretAll formulas env args = some operands) :
    (app head args).interpret formulas env = formulas.apply head operands := by
  have hlet : head ≠ "let" := by
    rintro rfl
    exact absurd hhead (by decide)
  have hleast : args ≠ [leastNumeral] := by
    rintro rfl
    cases hargs
  rw [interpret_formulas_app hlet, if_neg fun h => hleast h.2, hargs]
  rfl

/-- One argument is interpreted by itself. -/
theorem interpretAll_one {t : Sexp} {e : Expr} (h : t.interpret formulas env = some e) :
    interpretAll formulas env [t] = some [e] := by
  rw [interpretAll, h]
  rfl

/-- Two arguments are interpreted one after the other. -/
theorem interpretAll_two {l r : Sexp} {left right : Expr}
    (hl : l.interpret formulas env = some left) (hr : r.interpret formulas env = some right) :
    interpretAll formulas env [l, r] = some [left, right] := by
  rw [interpretAll, hl, interpretAll_one hr]
  rfl

/-- A constant is read back: a negative one as its sign and its magnitude, the least one as a
whole. -/
theorem interpret_intTerm (i : Int64) :
    (intTerm i).interpret formulas env = some (Expr.integer i).readBack := by
  rw [intTerm, Expr.integer, Expr.readBack]
  by_cases hneg : i < 0
  · rw [if_pos hneg, interpret_formulas_app (by decide)]
    by_cases hleast : i = Int64.minValue
    · -- the least word is written with a sign and read as one constant
      subst hleast
      rfl
    · -- any other magnitude fits in a word again, and the sign is applied to it
      have hlow := Word.minValue_lt hleast
      have hargs : ¬ ("-" = "-" ∧ [numeral (Word.magnitude i)] = [leastNumeral]) := by
        rintro ⟨-, heq⟩
        refine hleast ((Word.magnitude_eq_magnitude_minValue_iff hneg).1 ?_)
        simpa [leastNumeral, numeral] using heq
      have hvalue : (numeral (Word.magnitude i)).interpret formulas env = some (.integer (-i)) := by
        show (Word.signed? _).map _ = _
        rw [Word.signed?_magnitude_of_neg hlow hneg]
        rfl
      rw [if_neg hargs, interpretAll_one hvalue, if_pos ⟨hlow, hneg⟩]
      rfl
  · rw [if_neg hneg, if_neg fun h => hneg h.2]
    show (Word.signed? _).map _ = _
    rw [Word.signed?_magnitude hneg]
    rfl

/-- **The term of a formula stands for what is read back.** -/
theorem interpret_of_hasTerm {e : Expr} {t : Sexp} (h : e.HasTerm t)
    (hnames : ∀ x ∈ e.vars, x.name ≠ "true" ∧ x.name ≠ "false" ∧ env x.name = some (.var x)) :
    t.interpret formulas env = some e.readBack := by
  induction h with
  | var x =>
    obtain ⟨htrue, hfalse, hx⟩ := hnames x (List.mem_singleton_self x)
    show (if _ then _ else if _ then _ else _) = _
    rw [if_neg htrue, if_neg hfalse, hx]
    rfl
  | literal b => cases b <;> rfl
  | integer i => exact interpret_intTerm i
  | negation _ ih => exact interpret_app_of_some (by decide) (interpretAll_one (ih hnames))
  | minus _ ih => exact interpret_app_of_some (by decide) (interpretAll_one (ih hnames))
  | compare op _ _ ihl ihr =>
    obtain ⟨hl, hr⟩ := List.forall_mem_append.1 hnames
    have hpair := interpretAll_two (ihl hl) (ihr hr)
    cases op with
    | ne =>
      -- an inequality is a negation of the equality
      exact interpret_app_of_some (by decide)
        (interpretAll_one (interpret_app_of_some (by decide) hpair))
    | eq | ge | gt | le | lt => exact interpret_app_of_some (by decide) hpair
  | arith op _ _ ihl ihr =>
    obtain ⟨hl, hr⟩ := List.forall_mem_append.1 hnames
    have hpair := interpretAll_two (ihl hl) (ihr hr)
    cases op <;> exact interpret_app_of_some (by decide) hpair
  | @logic op head hhead _ _ _ _ _ _ ihl ihr =>
    obtain ⟨hl, hr⟩ := List.forall_mem_append.1 hnames
    have hpair := interpretAll_two (ihl hl) (ihr hr)
    cases op <;> cases hhead <;> exact interpret_app_of_some (by decide) hpair

end

/-! ## The round trip -/

/-- The printed term of a formula is decoded to what is read back, where the formula's variables are
declared. -/
theorem decode_render_of_hasTerm {declared : Registry} {e : Expr} {t : Sexp} (hterm : e.HasTerm t)
    (hnames : ∀ x ∈ e.vars, Readable x.name)
    (hdeclared : ∀ x ∈ e.vars, declared.find? x.name = some x) :
    decode declared t.render = .ok e.readBack := by
  have hwritten := written_of_hasTerm hterm fun x hx => (hnames x hx).1
  have hformula : t.formula? declared [] = some e.readBack := by
    refine interpret_of_hasTerm hterm fun x hx => ⟨(hnames x hx).2.1, (hnames x hx).2.2, ?_⟩
    show Option.map Expr.var (declared.find? x.name) = _
    rw [hdeclared x hx]
    rfl
  rw [← toOption_eq_some_iff, toOption_decode_of_letFree hwritten.spelled hwritten.free, hformula]

/-- **The round trip.** The printed term of a formula decodes to what is read back: each variable is
there with its type, and the value is the same under every valuation that gives boolean variables
boolean values, errors included, unless a formula that is not boolean is said to be equivalent. -/
theorem decode_encode {start enc : Encoder} {e : Expr} {t : Sexp}
    (h : start.run e.encode = (.ok t, enc)) (hnames : ∀ x ∈ e.vars, Readable x.name) :
    decode enc.declared t.render = .ok e.readBack ∧ e.readBack.vars = e.vars ∧
      (e.equivBoolean = true → ∀ v : Valuation, v.RespectsBool e.vars →
        e.readBack.eval v = e.eval v) := by
  obtain ⟨hterm, -, hdeclared⟩ := encode_ok h
  exact ⟨decode_render_of_hasTerm hterm hnames hdeclared, Expr.vars_readBack e,
    fun hequiv v hv => Expr.eval_readBack hv hequiv⟩

/-- An inequality of booleans comes back as a negated equivalence, and a negative constant with a
sign; the name of the variable with a bound is quoted in between. -/
theorem decode_encode_negated :
    let e := Expr.logic .and (.compare .ne (.var ⟨"p", .bool⟩) (.var ⟨"q", .bool⟩))
      (.compare .le (.integer (-3)) (.var ⟨"a b", .int ⟨some 0, none⟩⟩))
    let t := Sexp.app "and" [
      .app "not" [.app "=" [.symbol "p", .symbol "q"]],
      .app "<=" [.app "-" [.numeral 3], .symbol "a b"]]
    let back := Expr.logic .and
      (.negation (.logic .equiv (.var ⟨"p", .bool⟩) (.var ⟨"q", .bool⟩)))
      (.compare .le (.minus (.integer 3)) (.var ⟨"a b", .int ⟨some 0, none⟩⟩))
    (Encoder.empty.run e.encode).1 = .ok t ∧
      decode (Encoder.empty.run e.encode).2.declared t.render = .ok back ∧
      ∀ v : Valuation, v.RespectsBool e.vars → back.eval v = e.eval v := by
  intro e t back
  have hencode : Encoder.empty.run e.encode = (.ok t, (Encoder.empty.run e.encode).2) := rfl
  obtain ⟨hdecode, -, hvalue⟩ := decode_encode hencode (by decide +kernel)
  exact ⟨rfl, hdecode, hvalue rfl⟩

end Interpolants
