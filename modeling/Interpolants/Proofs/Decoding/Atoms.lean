import Interpolants.Proofs.Decoding.Lexical
import Interpolants.Proofs.Decoding.Written
import Interpolants.Proofs.Outcome

/-!
# Interpolants — printed atoms

What decoding makes of the written form of a legible atom, wherever it stands: as a leaf it is the
formula that the atom stands for, in front of a list the operator of that name, in a let block the
name that is bound.
-/

namespace Interpolants

open Text Sexp

variable {a : Atom}

/-! ## Leaves -/

section

variable {name : String}

/-- A legible name is not written like a number. -/
theorem Legible.isNumeral_chars (h : Legible name) :
    Decimal.isNumeral (Atom.symbol name).chars = false := by
  rcases h.chars_eq with ⟨-, hchars⟩ | ⟨-, hchars⟩
  · rw [hchars]
    rfl
  · rw [hchars]
    exact h.notNumeral

/-- A legible symbol is read as what its name stands for. -/
theorem leaf_symbol (names : Names) (h : Legible name) :
    (names.leaf (Atom.symbol name).chars).toOption
      = (Sexp.symbol name).interpret formulas names.find? := by
  show _ = if name = "true" then _ else if name = "false" then _ else _
  rw [Names.leaf, h.unquote_chars, h.isNumeral_chars]
  -- quoting makes no literal of a symbol, nor another symbol of a literal
  have htrue : (Atom.symbol name).chars = "true".toList ↔ name = "true" :=
    h.chars_eq_iff (forall_mem_of_all (by decide)) (by decide)
  have hfalse : (Atom.symbol name).chars = "false".toList ↔ name = "false" :=
    h.chars_eq_iff (forall_mem_of_all (by decide)) (by decide)
  by_cases ht : name = "true"
  · rw [if_pos (htrue.2 ht), if_pos ht]
    rfl
  · rw [if_neg (mt htrue.1 ht), if_neg ht]
    by_cases hf : name = "false"
    · rw [if_pos (hfalse.2 hf), if_pos hf]
      rfl
    · rw [if_neg (mt hfalse.1 hf), if_neg hf, if_neg (by simp)]
      cases names.find? name <;> rfl

/-- A number is read as a constant, if it fits a word. -/
theorem leaf_numeral (names : Names) (n : UInt64) :
    (names.leaf (Atom.numeral n).chars).toOption
      = (Sexp.numeral n).interpret formulas names.find? := by
  show (names.leaf (Decimal.digits n.toNat)).toOption
    = (Word.signed? (n.toNat : Int)).map Expr.integer
  have hnumeral := Decimal.isNumeral_digits n.toNat
  have hword : ∀ word : String, Decimal.isNumeral word.toList = false →
      Decimal.digits n.toNat ≠ word.toList := by
    intro word hword heq
    rw [heq, hword] at hnumeral
    cases hnumeral
  rw [Names.leaf, if_neg (hword "true" (by decide)), if_neg (hword "false" (by decide)),
    if_pos hnumeral, Decimal.value_digits]
  cases Word.signed? (n.toNat : Int) <;> rfl

/-- **A legible atom is read as the formula that it stands for.** -/
theorem leaf_atom (names : Names) (h : (atom a).Spelled Legible) :
    (names.leaf a.chars).toOption = (atom a).interpret formulas names.find? := by
  cases h with
  | numeral n => exact leaf_numeral names n
  | symbol hs => exact leaf_symbol names hs

end

/-! ## Names and operators -/

/-- Without its quotes the written form of an atom is its name. -/
theorem unquote_name (h : (atom a).Spelled Legible) : unquote a.chars = a.name := by
  cases h with
  | symbol hs => exact hs.unquote_chars
  | numeral n =>
    have hdigits := Decimal.isNumeral_digits n.toNat
    show unquote (Decimal.digits n.toNat) = String.ofList (Decimal.digits n.toNat)
    unfold unquote
    split
    · next heq =>
      rw [heq] at hdigits
      cases hdigits
    · rfl

/-- Only the symbol of a plain word is written like the word. -/
theorem chars_eq_word_iff (h : (atom a).Spelled Legible) {word : String}
    (hword : ∀ c ∈ word.toList, Atom.isSpecial c = false) (hpipe : '|' ∉ word.toList)
    (hnumeral : Decimal.isNumeral word.toList = false) :
    a.chars = word.toList ↔ a = .symbol word := by
  cases h with
  | numeral n =>
    refine ⟨fun heq => ?_, nofun⟩
    have hdigits := Decimal.isNumeral_digits n.toNat
    rw [show Decimal.digits n.toNat = word.toList from heq, hnumeral] at hdigits
    cases hdigits
  | symbol hs =>
    rw [Atom.symbol.injEq]
    exact hs.chars_eq_iff hword hpipe

theorem chars_eq_minus_iff (h : (atom a).Spelled Legible) : a.chars = ['-'] ↔ a = .symbol "-" := by
  show a.chars = "-".toList ↔ _
  exact chars_eq_word_iff h (forall_mem_of_all (by decide)) (by decide) (by decide)

theorem chars_eq_let_iff (h : (atom a).Spelled Legible) :
    a.chars = "let".toList ↔ a = .symbol "let" :=
  chars_eq_word_iff h (forall_mem_of_all (by decide)) (by decide) (by decide)

/-- Only the number that is one larger than every word stands in the written form of the least
word. -/
theorem isLeast_iff (h : (atom a).Spelled Legible) :
    (Decimal.isNumeral a.chars && Decimal.value a.chars == Int64.minValue.toInt.natAbs) = true ↔
      atom a = leastNumeral := by
  cases h with
  | symbol hs =>
    rw [hs.isNumeral_chars]
    simp [leastNumeral, Sexp.numeral]
  | numeral n =>
    show (Decimal.isNumeral (Decimal.digits n.toNat) && Decimal.value (Decimal.digits n.toNat)
      == Int64.minValue.toInt.natAbs) = true ↔ _
    rw [Decimal.isNumeral_digits, Decimal.value_digits, Bool.true_and, beq_iff_eq,
      ← Word.toNat_magnitude, UInt64.toNat_inj]
    simp [leastNumeral, Sexp.numeral]

/-- What is written between pipes, or with digits, is no operator. -/
theorem applyNamed_chars (h : (atom a).Spelled Legible) (operands : List Expr) :
    (applyNamed (String.ofList a.chars) operands).toOption =
      match a with
      | .symbol s => formulas.apply s operands
      | .numeral _ => none := by
  cases h with
  | numeral n =>
    -- digits name no operator
    have hdigits := Decimal.isNumeral_digits n.toNat
    obtain ⟨c, cs, heq⟩ := List.exists_cons_of_ne_nil (Decimal.digits_ne_nil n.toNat)
    rw [Decimal.isNumeral, heq, List.all_cons, Bool.and_eq_true] at hdigits
    show (applyNamed (String.ofList (Decimal.digits n.toNat)) operands).toOption = none
    refine applyNamed_of_ofName? ?_ operands
    exact ofName?_of_mem (c := c) (by simp [heq]) Char.isDigit hdigits.1 (by decide)
  | @symbol s hs =>
    show _ = (applyNamed s operands).toOption
    rcases hs.chars_eq with ⟨⟨c, hc, hspecial⟩, hchars⟩ | ⟨-, hchars⟩
    · -- the quoted form names no operator, and neither does the symbol without its quotes
      have hquoted : Operator.ofName? (String.ofList (Atom.symbol s).chars) = none :=
        ofName?_of_mem (c := '|') (by simp [hchars]) (· == '|') rfl (by decide)
      have hname := ofName?_of_mem hc Atom.isSpecial hspecial (by decide)
      rw [applyNamed_of_ofName? hquoted, applyNamed_of_ofName? hname]
    · rw [hchars, String.ofList_toList]

/-- What a list with a name in front stands for, its name as it is written. -/
theorem interpret_application {env : Env Expr} {args : List Sexp}
    (ha : (atom a).Spelled Legible) (hlet : isLet (atom a :: args) = false) :
    (list (atom a :: args)).interpret formulas env =
      if a = .symbol "-" ∧ args = [leastNumeral] then some (.integer Int64.minValue)
      else (interpretAll formulas env args).bind fun es =>
        (applyNamed (String.ofList a.chars) es).toOption := by
  simp only [applyNamed_chars ha]
  cases a with
  | numeral n =>
    rw [if_neg nofun]
    cases interpretAll formulas env args <;> rfl
  | symbol s =>
    -- only `let` is read in another way, and it has no arguments here
    by_cases hs : s = "let"
    · subst hs
      cases args with
      | nil => rfl
      | cons t ts => cases hlet
    · simp only [Atom.symbol.injEq]
      exact interpret_formulas_app hs args

end Interpolants
