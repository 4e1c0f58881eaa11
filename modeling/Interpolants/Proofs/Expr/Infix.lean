import Interpolants.Expr.Parser
import Interpolants.Expr.Printer
import Interpolants.Proofs.Number.Word
import Interpolants.Proofs.Text.Character
import Interpolants.Proofs.Text.Reader

/-!
# Interpolants — infix formulas

The formulas whose infix form is read back: those over declared variables whose names are
identifiers, with the operators on booleans and integers. There are no negative numerals, so a
negative constant is read back as a minus sign before a positive one.
-/

namespace Interpolants.Expr

open Text Text.Reader

/-! ## The fragment -/

/-- Whether a name is read as an identifier. -/
def isIdentifier (name : String) : Bool :=
  match name.toList with
  | [] => false
  | c :: cs => isIdentStart c && cs.all isIdentChar

/-- A formula of booleans and integers, whose variables are declared and have identifiers as names.
Its operands may be of any type. -/
inductive Infix (declared : Registry) : Expr → Prop where
  | var {x : Variable} (hname : isIdentifier x.name = true) (htrue : x.name ≠ "true")
    (hfalse : x.name ≠ "false") (hdeclared : declared.find? x.name = some x) :
    Infix declared (.var x)
  | literal (b : Bool) : Infix declared (literal b)
  | integer (i : Int64) : Infix declared (integer i)
  | negation {e : Expr} (h : Infix declared e) : Infix declared (negation e)
  | minus {e : Expr} (h : Infix declared e) : Infix declared (minus e)
  | binary {op : BinaryOp} (hop : ∀ bits, op ≠ .bits bits) {left right : Expr}
    (hleft : Infix declared left) (hright : Infix declared right) :
    Infix declared (.binary op left right)

/-- The constants of a formula. -/
def constants : Expr → List Value
  | .var _ => []
  | .const c => [c]
  | .unary _ e | .cast e _ | .quantified _ _ e => e.constants
  | .binary _ left right => left.constants ++ right.constants

/-- A formula with a minus sign for each negative constant. -/
def signed : Expr → Expr
  | .const (.int i) => if i < 0 then minus (integer (-i)) else integer i
  | .unary op e => .unary op e.signed
  | .binary op left right => .binary op left.signed right.signed
  | e => e

/-! ## Characters -/

/-- A text that does not continue an identifier or a numeral. -/
def Ends (cs : List Char) : Prop :=
  ∀ c rest, cs = c :: rest → isIdentChar c = false

theorem ends_nil : Ends [] :=
  nofun

theorem ends_cons {c : Char} (h : isIdentChar c = false) (cs : List Char) : Ends (c :: cs) := by
  rintro c' rest ⟨⟩
  exact h

/-- No identifier starts with a digit. -/
theorem isDigit_of_isIdentStart {c : Char} (h : isIdentStart c = true) : c.isDigit = false := by
  rw [isIdentStart, Bool.or_eq_true] at h
  rcases h with h | h
  · exact isDigit_of_isAlpha h
  · rw [eq_of_beq h]
    decide

/-- Digits may stand in an identifier. -/
theorem isIdentChar_of_isDigit {c : Char} (h : c.isDigit = true) : isIdentChar c = true := by
  simp [isIdentChar, h]

/-- A run of characters that may stand in a name is over where the text behind it ends the name. -/
theorem span_of_ends {p : Char → Bool} (hp : ∀ c, p c = true → isIdentChar c = true)
    {cs rest : List Char} (hcs : ∀ c ∈ cs, p c = true) (hrest : Ends rest) :
    (cs ++ rest).takeWhile p = cs ∧ (cs ++ rest).dropWhile p = rest := by
  have hstop : rest.takeWhile p = [] ∧ rest.dropWhile p = rest := by
    cases rest with
    | nil => exact ⟨rfl, rfl⟩
    | cons c rest =>
      have hc : ¬ p c = true := fun h => by
        have hident := hp c h
        rw [hrest c rest rfl] at hident
        cases hident
      exact ⟨List.takeWhile_cons_of_neg hc, List.dropWhile_cons_of_neg hc⟩
  rw [List.takeWhile_append_of_pos hcs, List.dropWhile_append_of_pos hcs, hstop.1, hstop.2,
    List.append_nil]
  exact ⟨rfl, rfl⟩

/-! ## Leaves -/

variable {declared : Registry} {rest : List Char}

/-- A number has a first digit, and nothing else but digits. -/
theorem exists_digits_eq (n : Nat) :
    ∃ c cs, Decimal.digits n = c :: cs ∧ ∀ c' ∈ c :: cs, c'.isDigit = true := by
  have hdigits := List.all_eq_true.1 (Decimal.isNumeral_digits n)
  cases hn : Decimal.digits n with
  | nil => exact absurd hn (Decimal.digits_ne_nil n)
  | cons c cs => exact ⟨c, cs, rfl, by rwa [← hn]⟩

/-- A numeral starts with a digit and goes on with digits. -/
theorem exists_cons_of_isNumeral {cs : List Char} (hne : cs ≠ [])
    (hcs : Decimal.isNumeral cs = true) :
    ∃ c more, cs = c :: more ∧ c.isDigit = true ∧ ∀ c' ∈ more, c'.isDigit = true := by
  obtain ⟨c, more, rfl⟩ := List.exists_cons_of_ne_nil hne
  obtain ⟨hc, hmore⟩ := List.forall_mem_cons.1 (List.all_eq_true.1 hcs)
  exact ⟨c, more, rfl, hc, hmore⟩

/-- A numeral is read as the word of its value, and refused if there is none. -/
theorem value_numeral_of_isNumeral {cs : List Char} (hne : cs ≠ [])
    (hcs : Decimal.isNumeral cs = true) (hrest : Ends rest) :
    (numeral (cs ++ rest)).value
      = (Word.signed? (Decimal.value cs)).map fun i => (integer i, rest) := by
  obtain ⟨c, more, rfl, hc, hmore⟩ := exists_cons_of_isNumeral hne hcs
  obtain ⟨htake, hdrop⟩ := span_of_ends (fun c => isIdentChar_of_isDigit) hmore hrest
  unfold numeral
  rw [List.cons_append, value_bind_of_some (value_one_of_pos hc _),
    value_bind_of_some (value_takeWhile _ _), htake, hdrop]
  cases Word.signed? (Decimal.value (c :: more)) <;> rfl

/-- The digits of a number are read as the word that is equal to it. -/
theorem value_numeral (n : Nat) (hrest : Ends rest) :
    (numeral (Decimal.digits n ++ rest)).value
      = (Word.signed? n).map fun i => (integer i, rest) := by
  rw [value_numeral_of_isNumeral (Decimal.digits_ne_nil n) (Decimal.isNumeral_digits n) hrest,
    Decimal.value_digits]

/-- The characters of an identifier. -/
theorem exists_identifier_eq {name : String} (h : isIdentifier name = true) :
    ∃ c cs, name.toList = c :: cs ∧ isIdentStart c = true ∧ ∀ c' ∈ cs, isIdentChar c' = true := by
  unfold isIdentifier at h
  split at h
  · cases h
  · next c cs heq =>
    rw [Bool.and_eq_true, List.all_eq_true] at h
    exact ⟨c, cs, heq, h⟩

/-- An identifier is read to its end. -/
theorem value_identifier {name : String} (h : isIdentifier name = true) (hrest : Ends rest) :
    (identifier (name.toList ++ rest)).value = some (name, rest) := by
  obtain ⟨c, cs, heq, hstart, hcs⟩ := exists_identifier_eq h
  obtain ⟨htake, hdrop⟩ := span_of_ends (fun c hc => hc) hcs hrest
  have hname : String.ofList (c :: cs) = name := by
    rw [← heq, String.ofList_toList]
  unfold identifier
  rw [heq, List.cons_append, value_bind_of_some (value_one_of_pos hstart _),
    value_bind_of_some (value_takeWhile _ _), htake, hdrop, hname]
  rfl

/-- A literal is read back. -/
theorem value_leaf_literal (b : Bool) (hrest : Ends rest) :
    (leaf declared ((Value.bool b).chars ++ rest)).value = some (literal b, rest) := by
  cases b with
  | false =>
    have hname : (identifier ("false".toList ++ rest)).value = some ("false", rest) :=
      value_identifier (by decide) hrest
    exact (value_bind_of_some hname _).trans rfl
  | true =>
    have hname : (identifier ("true".toList ++ rest)).value = some ("true", rest) :=
      value_identifier (by decide) hrest
    exact (value_bind_of_some hname _).trans rfl

/-- A declared variable is read back, unless a literal has its name. -/
theorem value_leaf_var {x : Variable} (hname : isIdentifier x.name = true) (htrue : x.name ≠ "true")
    (hfalse : x.name ≠ "false") (hdeclared : declared.find? x.name = some x) (hrest : Ends rest) :
    (leaf declared (x.name.toList ++ rest)).value = some (.var x, rest) := by
  unfold leaf
  rw [value_bind_of_some (value_identifier hname hrest), if_neg htrue, if_neg hfalse, hdeclared]
  rfl

/-! ## Operands

What an operand is shows at its first character. -/

section

variable {fuel : Nat} {c : Char} {cs : List Char} {e : Expr}

/-- A reader that begins with a character fails at another. -/
theorem value_word_bind_eq_none {α : Type} {c c' : Char} (h : c ≠ c') (next : Unit → Reader α)
    (cs : List Char) : ((word [c] >>= next) (c' :: cs)).value = none :=
  value_bind_of_none (value_word_of_ne h [] cs) next

/-- Where no sign stands a numeral is tried before a name. -/
theorem value_operand_unsigned {result : Expr × List Char} (hnot : '!' ≠ c) (hminus : '-' ≠ c)
    (h : (numeral (c :: cs)).value.or (leaf declared (c :: cs)).value = some result) :
    (operand declared (fuel + 1) (c :: cs)).value = some result := by
  rw [operand, value_firstOf_cons, value_word_bind_eq_none hnot, Option.none_or, value_firstOf_cons,
    value_word_bind_eq_none hminus, Option.none_or, value_firstOf_cons, value_firstOf_cons,
    ← Option.or_assoc, h, Option.some_or]

/-- At a digit an operand is a numeral. -/
theorem value_operand_numeral {result : Expr × List Char} (hc : c.isDigit = true)
    (h : (numeral (c :: cs)).value = some result) :
    (operand declared (fuel + 1) (c :: cs)).value = some result := by
  refine value_operand_unsigned ?_ ?_ (by rw [h, Option.some_or]) <;>
    · rintro rfl
      exact absurd hc (by decide)

/-- At the start of an identifier an operand is a literal or a variable. -/
theorem value_operand_leaf {result : Expr × List Char} (hc : isIdentStart c = true)
    (h : (leaf declared (c :: cs)).value = some result) :
    (operand declared (fuel + 1) (c :: cs)).value = some result := by
  have hnumeral : (numeral (c :: cs)).value = none :=
    value_bind_of_none (value_one_of_neg (isDigit_of_isIdentStart hc) cs) _
  refine value_operand_unsigned ?_ ?_ (by rw [hnumeral, Option.none_or, h]) <;>
    · rintro rfl
      exact absurd hc (by decide)

/-- Behind an exclamation mark stands the operand of a negation. -/
theorem value_operand_not
    (h : (climb declared fuel (Precedence.negation + 1) (cs.dropWhile isSpace)).value
      = some (e, rest)) :
    (operand declared (fuel + 1) ('!' :: cs)).value = some (negation e, rest) := by
  rw [operand, value_firstOf_cons, value_bind_of_some (value_word_head '!' cs),
    value_bind_of_some (value_spaces cs), value_bind_of_some h]
  rfl

/-- Behind a minus sign stands its operand. -/
theorem value_operand_minus
    (h : (climb declared fuel (Precedence.sign + 1) (cs.dropWhile isSpace)).value
      = some (e, rest)) :
    (operand declared (fuel + 1) ('-' :: cs)).value = some (minus e, rest) := by
  rw [operand, value_firstOf_cons, value_word_bind_eq_none (by decide), value_firstOf_cons,
    value_bind_of_some (value_word_head '-' cs), value_bind_of_some (value_spaces cs),
    value_bind_of_some h]
  rfl

/-- An operand in parentheses is a formula of any strength. -/
theorem value_operand_parens {mid : List Char}
    (h : (climb declared fuel Precedence.quantifier (cs.dropWhile isSpace)).value = some (e, mid))
    (hclose : mid.dropWhile isSpace = ')' :: rest) :
    (operand declared (fuel + 1) ('(' :: cs)).value = some (e, rest) := by
  have hnumeral : (numeral ('(' :: cs)).value = none :=
    value_bind_of_none (value_one_of_neg (by decide) cs) _
  have hleaf : (leaf declared ('(' :: cs)).value = none :=
    value_bind_of_none (value_bind_of_none (value_one_of_neg (by decide) cs) _) _
  rw [operand, value_firstOf_cons, value_word_bind_eq_none (by decide), value_firstOf_cons,
    value_word_bind_eq_none (by decide), value_firstOf_cons, hnumeral, value_firstOf_cons, hleaf,
    value_firstOf_cons, value_bind_of_some (value_word_head '(' cs),
    value_bind_of_some (value_spaces cs), value_bind_of_some h,
    value_bind_of_some (value_spaces mid), hclose, value_bind_of_some (value_word_head ')' rest)]
  rfl

end

end Interpolants.Expr
