import Interpolants.Proofs.Expr.Infix
import Interpolants.Proofs.Expr.Symbols

/-!
# Interpolants — printed formulas are read back

The printer leaves out parentheses where precedence climbing does not need them. Why they agree: a
formula is read at any strength up to its own (`Infix.climbs`), and behind it every climb that its
last operands have opened is at least as strong as its `edge`, so that an operator which binds less
strongly than the edge ends them all. The printer puts parentheses around an operand exactly if the
operator that follows, or the strength that is asked for, would break one of the two.
-/

namespace Interpolants.Expr

open Text Text.Reader

variable {declared : Registry}

/-- The least strength at which operators are looked for behind the last operand of a formula. -/
def edge : Expr → Nat
  | .binary op _ _ => rightStrength op
  | .unary op _ => op.precedence + 1
  | .const (.int i) => if i < 0 then Precedence.sign + 1 else Precedence.leaf + 1
  | _ => Precedence.leaf + 1

/-- A formula that is an operand of no operator weaker than a strength. -/
def Fits (strength : Nat) (e : Expr) : Prop :=
  ∀ op left right, e = .binary op left right → strength ≤ op.precedence

/-! ## Climbs -/

/-- Reading a text at a strength comes to a formula, with some text left behind which reading goes
on. The fuel is that of the text, and is enough for what is left. -/
def Reaches (declared : Registry) (strength : Nat) (cs : List Char) (e : Expr) (rest : List Char) :
    Prop :=
  ∀ fuel, 2 * cs.length + 2 ≤ fuel → ∃ fuel', 2 * rest.length + 1 ≤ fuel' ∧
    (climb declared fuel strength cs).value = (extend declared fuel' strength e rest).value

section

variable {strength : Nat} {cs rest : List Char} {e left right : Expr} {op : BinaryOp}

/-- Reads an operator and its right operand behind a left one. -/
def extension (declared : Registry) (fuel : Nat) (left : Expr) (op : BinaryOp) : Reader Expr := do
  infixSymbol op
  return binary op left (← climb declared fuel (rightStrength op))

/-- What is read behind a left operand: the first operator that is strong enough and has a right
operand, and then on from there. -/
theorem value_extend (fuel : Nat) :
    (extend declared (fuel + 1) strength left cs).value =
      match (firstOf ((infixOps.filter fun op => decide (strength ≤ op.precedence)).map
        (extension declared fuel left)) cs).value with
      | some (e, rest) => (extend declared fuel strength e rest).value
      | none => some (left, cs) := by
  have hoptional := value_optional (firstOf ((infixOps.filter fun op =>
    decide (strength ≤ op.precedence)).map (extension declared fuel left))) cs
  rw [extend]
  cases hread : (firstOf ((infixOps.filter fun op => decide (strength ≤ op.precedence)).map
      (extension declared fuel left)) cs).value with
  | none =>
    rw [hread] at hoptional
    exact value_bind_of_some hoptional _
  | some result =>
    rw [hread] at hoptional
    exact value_bind_of_some hoptional _

/-- Nothing is added to a left operand where reading stops. -/
theorem value_extend_of_stops {fuel : Nat} (h : Stops strength cs) (hfuel : 0 < fuel) :
    (extend declared fuel strength left cs).value = some (left, cs) := by
  obtain ⟨fuel, rfl⟩ := Nat.exists_eq_succ_of_ne_zero (Nat.ne_of_gt hfuel)
  rw [value_extend, value_firstOf_eq_none]
  intro reader hreader
  obtain ⟨op, hop, rfl⟩ := List.mem_map.1 hreader
  obtain ⟨hop, hstrength⟩ := List.mem_filter.1 hop
  exact value_bind_of_none (h op hop (of_decide_eq_true hstrength)) _

/-- An operator with spaces around it and its right operand are added to the left operand. -/
theorem value_extend_gap {fuel : Nat} {before tail : List Char} (hop : op ∈ infixOps)
    (hstrength : strength ≤ op.precedence) (hbefore : before.all isSpace = true)
    (htail : EndsSymbol tail)
    (hright : (climb declared fuel (rightStrength op) (tail.dropWhile isSpace)).value
      = some (right, rest)) :
    (extend declared (fuel + 1) strength left (before ++ op.symbol ++ tail)).value
      = (extend declared fuel strength (.binary op left right) rest).value := by
  have hread : (extension declared fuel left op (before ++ op.symbol ++ tail)).value
      = some (.binary op left right, rest) := by
    unfold extension
    rw [value_bind_of_some (value_infixSymbol_gap hbefore htail), value_bind_of_some hright]
    rfl
  -- the operators that are tried before it are not read here
  have hordered := not_startsLike_of_before.filter fun op => decide (strength ≤ op.precedence)
  have hmem : op ∈ infixOps.filter fun op => decide (strength ≤ op.precedence) :=
    List.mem_filter.2 ⟨hop, decide_eq_true hstrength⟩
  obtain ⟨first, others, hops⟩ := List.append_of_mem hmem
  rw [hops, List.pairwise_append] at hordered
  have hfirst : ∀ reader ∈ first.map (extension declared fuel left),
      (reader (before ++ op.symbol ++ tail)).value = none := by
    intro reader hreader
    obtain ⟨other, hother, rfl⟩ := List.mem_map.1 hreader
    have hother' : other ∈ infixOps := by
      have hfiltered : other ∈ first ++ op :: others := List.mem_append_left _ hother
      rw [← hops] at hfiltered
      exact (List.mem_filter.1 hfiltered).1
    have hstarts := hordered.2.2 other hother op List.mem_cons_self
    exact value_bind_of_none (value_infixSymbol_gap_eq_none hother' hstarts hbefore htail) _
  rw [value_extend, hops, List.map_append, List.map_cons, value_firstOf_append hfirst hread]

/-- Where reading stops, what it has come to is its result. -/
theorem Reaches.value_climb (h : Reaches declared strength cs e rest) (hstops : Stops strength rest)
    {fuel : Nat} (hfuel : 2 * cs.length + 2 ≤ fuel) :
    (climb declared fuel strength cs).value = some (e, rest) := by
  obtain ⟨fuel', hfuel', heq⟩ := h fuel hfuel
  rw [heq, value_extend_of_stops hstops (by omega)]

/-- An operand at the front is what reading comes to first. -/
theorem Reaches.of_operand (hlength : rest.length ≤ cs.length)
    (h : ∀ fuel, 2 * cs.length ≤ fuel → (operand declared (fuel + 1) cs).value = some (e, rest)) :
    Reaches declared strength cs e rest := by
  intro fuel hfuel
  obtain ⟨fuel, rfl⟩ : ∃ fuel', fuel = fuel' + 2 := ⟨fuel - 2, by omega⟩
  refine ⟨fuel + 1, by omega, ?_⟩
  rw [climb, value_bind_of_some (h fuel (by omega))]

end

/-! ## Texts of formulas -/

/-- A text that starts with a character which is no space. -/
def Begins (cs : List Char) : Prop :=
  ∃ c more, cs = c :: more ∧ isSpace c = false

theorem Begins.append {cs : List Char} (h : Begins cs) (more : List Char) :
    Begins (cs ++ more) := by
  obtain ⟨c, rest, rfl, hc⟩ := h
  exact ⟨c, rest ++ more, rfl, hc⟩

theorem Begins.dropWhile_eq {cs : List Char} (h : Begins cs) : cs.dropWhile isSpace = cs := by
  obtain ⟨c, rest, rfl, hc⟩ := h
  exact List.dropWhile_cons_of_neg (by simp [hc])

theorem Begins.bracket {cs : List Char} (h : Begins cs) (needed : Bool) :
    Begins (Expr.bracket needed cs) := by
  cases needed with
  | false => exact h
  | true => exact ⟨'(', cs ++ [')'], rfl, by decide⟩

/-- No character of an identifier is a space. -/
theorem isSpace_of_isIdentChar {c : Char} (h : isIdentChar c = true) : isSpace c = false := by
  rw [Bool.eq_false_iff]
  intro hspace
  simp only [isSpace, Bool.or_eq_true, beq_iff_eq] at hspace
  rcases hspace with ((rfl | rfl) | rfl) | rfl <;> exact absurd h (by decide)

theorem begins_digits (n : Nat) : Begins (Decimal.digits n) := by
  obtain ⟨c, cs, heq, hdigits⟩ := exists_digits_eq n
  exact ⟨c, cs, heq, isSpace_of_isIdentChar (isIdentChar_of_isDigit (hdigits c List.mem_cons_self))⟩

/-- An integer constant is printed by the digits of its magnitude, with a minus sign if it is
negative. -/
theorem chars_integer (i : Int64) :
    (integer i).chars = if i < 0 then '-' :: Decimal.digits (Word.magnitude i).toNat
      else Decimal.digits (Word.magnitude i).toNat := by
  show Decimal.chars i.toInt = _
  rw [Word.toNat_magnitude]
  simp only [Word.neg_iff]
  cases i.toInt with
  | ofNat n => exact (if_neg (Int.not_lt.2 (Int.natCast_nonneg n))).symm
  | negSucc n => exact (if_pos (Int.negSucc_lt_zero n)).symm

/-- The text of a formula starts with no space. -/
theorem Infix.begins {e : Expr} (h : e.Infix declared) : Begins e.chars := by
  induction h with
  | var hname =>
    obtain ⟨c, cs, heq, hstart, -⟩ := exists_identifier_eq hname
    exact ⟨c, cs, heq, isSpace_of_isIdentChar (by rw [isIdentChar, hstart]; rfl)⟩
  | literal b => cases b <;> exact ⟨_, _, rfl, by decide⟩
  | integer i =>
    rw [chars_integer]
    split
    · exact ⟨'-', _, rfl, by decide⟩
    · exact begins_digits _
  | negation => exact ⟨'!', _, rfl, by decide⟩
  | minus => exact ⟨'-', _, rfl, by decide⟩
  | binary _ _ _ ihl _ => exact ((ihl.bracket _).append _).append _

/-! ## Operands -/

section

variable {strength : Nat} {cs rest : List Char} {e : Expr}

/-- Behind a minus sign no operator is looked for. -/
theorem stops_of_sign (h : Precedence.sign ≤ strength) (cs : List Char) : Stops strength cs := by
  intro op hop hstrength
  have hweak : ∀ op ∈ infixOps, op.precedence < Precedence.sign := by decide
  have := hweak op hop
  omega

/-- A numeral of a word is read as this word. -/
theorem reaches_numeral {i : Int64} (hne : cs ≠ []) (hcs : Decimal.isNumeral cs = true)
    (hi : Word.signed? (Decimal.value cs) = some i) (hrest : Ends rest) :
    Reaches declared strength (cs ++ rest) (integer i) rest := by
  refine .of_operand (by simp) fun fuel hfuel => ?_
  have hvalue : (numeral (cs ++ rest)).value = some (integer i, rest) := by
    rw [value_numeral_of_isNumeral hne hcs hrest, hi]
    rfl
  obtain ⟨c, more, rfl, hc, -⟩ := exists_cons_of_isNumeral hne hcs
  exact value_operand_numeral hc hvalue

theorem reaches_digits {n : Nat} {i : Int64} (hn : Word.signed? n = some i) (hrest : Ends rest) :
    Reaches declared strength (Decimal.digits n ++ rest) (integer i) rest :=
  reaches_numeral (Decimal.digits_ne_nil n) (Decimal.isNumeral_digits n)
    (by rwa [Decimal.value_digits]) hrest

/-- A minus sign is read in front of an operand of its own strength. -/
theorem reaches_minus (h : Reaches declared (Precedence.sign + 1) cs e rest) (hcs : Begins cs)
    (hlength : rest.length ≤ cs.length) :
    Reaches declared strength ('-' :: cs) (minus e) rest := by
  refine .of_operand (by simp; omega) fun fuel hfuel => ?_
  rw [List.length_cons] at hfuel
  have hvalue : (climb declared fuel (Precedence.sign + 1) cs).value = some (e, rest) :=
    h.value_climb (stops_of_sign (by decide) rest) (by omega)
  exact value_operand_minus (by rwa [hcs.dropWhile_eq])

/-- A negation is read in front of an operand behind which no operator of its strength stands. -/
theorem reaches_not (h : Reaches declared (Precedence.negation + 1) cs e rest)
    (hstops : Stops (Precedence.negation + 1) rest) (hcs : Begins cs)
    (hlength : rest.length ≤ cs.length) :
    Reaches declared strength ('!' :: cs) (negation e) rest := by
  refine .of_operand (by simp; omega) fun fuel hfuel => ?_
  rw [List.length_cons] at hfuel
  have hvalue : (climb declared fuel (Precedence.negation + 1) cs).value = some (e, rest) :=
    h.value_climb hstops (by omega)
  exact value_operand_not (by rwa [hcs.dropWhile_eq])

/-- A right operand is read behind its operator, and reading goes on behind it. -/
theorem Reaches.binary {op : BinaryOp} {before tail cs₁ : List Char} {left right : Expr}
    (hop : op ∈ infixOps) (hstrength : strength ≤ op.precedence)
    (hleft : Reaches declared strength cs₁ left (before ++ op.symbol ++ tail))
    (hright : Reaches declared (rightStrength op) cs right rest)
    (hbefore : before.all isSpace = true) (htail : EndsSymbol tail)
    (hcs : tail.dropWhile isSpace = cs) (hstops : Stops (rightStrength op) rest)
    (hlength : rest.length ≤ tail.length) :
    Reaches declared strength cs₁ (.binary op left right) rest := by
  subst hcs
  intro fuel hfuel
  obtain ⟨fuel', hfuel', hclimb⟩ := hleft fuel hfuel
  obtain ⟨c, symbol, hsymbol, -, -⟩ := exists_symbol_eq op
  -- the symbol is a character at least, which pays for one unit of fuel
  have hlonger : tail.length + 1 ≤ (before ++ op.symbol ++ tail).length := by
    simp [hsymbol]
    omega
  have hskip : (tail.dropWhile isSpace).length ≤ tail.length := List.length_dropWhile_le ..
  obtain ⟨fuel', rfl⟩ := Nat.exists_eq_succ_of_ne_zero (n := fuel') (by omega)
  refine ⟨fuel', by omega, ?_⟩
  rw [hclimb, value_extend_gap hop hstrength hbefore htail (hright.value_climb hstops (by omega))]

end

/-! ## Precedence and parentheses -/

/-- The operators that can be written are all but those on bits. -/
theorem mem_infixOps {op : BinaryOp} (h : ∀ bits, op ≠ .bits bits) : op ∈ infixOps := by
  cases op with
  | compare op => cases op <;> decide
  | arith op => cases op <;> decide
  | logic op => cases op <;> decide
  | bits op => exact absurd rfl (h op)

/-- A formula is read with any text behind that ends it, at any strength it is an operand for. -/
def Climbs (declared : Registry) (e : Expr) : Prop :=
  ∀ strength rest, Fits strength e → Stops (edge e) rest → Ends rest →
    Reaches declared strength (e.chars ++ rest) e.signed rest

/-- A right operand binds at least as strongly as its operator. -/
theorem precedence_le_rightStrength (op : BinaryOp) : op.precedence ≤ rightStrength op := by
  unfold rightStrength
  split <;> omega

theorem fits_of_le {strength : Nat} {e : Expr} (h : strength ≤ e.precedence) : Fits strength e := by
  rintro op left right rfl
  exact h

/-- Behind an operand that is no chain, operators of its own strength are not looked for. -/
theorem precedence_lt_edge {e : Expr} (h : ∀ op left right, e ≠ .binary op left right) :
    e.precedence < edge e := by
  cases e with
  | var | cast | quantified => exact of_decide_eq_true rfl
  | const c =>
    cases c with
    | bool | bitvec => exact of_decide_eq_true rfl
    | int i => simp only [precedence, edge]; split <;> decide
  | unary op => exact Nat.lt_succ_self op.precedence
  | binary op left right => exact absurd rfl (h op left right)

theorem precedence_le_edge (e : Expr) : e.precedence ≤ edge e := by
  cases e with
  | binary op => exact precedence_le_rightStrength op
  | _ => exact Nat.le_of_lt (precedence_lt_edge nofun)

/-- An operand without parentheses binds more strongly, or continues a chain. -/
theorem operandBracketed_eq_false {op : BinaryOp} {side : Associativity} {e : Expr}
    (h : operandBracketed op side e = false) :
    op.precedence < e.precedence ∨ op.associativity = side ∧
    ∃ left right, e = .binary op left right := by
  unfold operandBracketed at h
  split at h
  · split at h
    · next inner left right _ =>
      simp only [Bool.not_eq_false', Bool.and_eq_true, beq_iff_eq] at h
      obtain ⟨rfl, hside⟩ := h
      exact .inr ⟨hside, left, right, rfl⟩
    · cases h
  · next hne =>
    have := of_decide_eq_false h
    exact .inl (by omega)

/-- A left operand without parentheses ends where its operator can follow. -/
theorem lt_edge_of_left {op : BinaryOp} {e : Expr} (h : operandBracketed op .left e = false) :
    op.precedence ≤ e.precedence ∧ op.precedence < edge e := by
  rcases operandBracketed_eq_false h with hlt | ⟨hside, left, right, rfl⟩
  · have := precedence_le_edge e
    omega
  · have hright : rightStrength op = op.precedence + 1 := if_neg (by rw [hside]; decide)
    exact ⟨Nat.le_refl _, by rw [edge, hright]; omega⟩

/-- A right operand without parentheses is read whole behind its operator. -/
theorem rightStrength_le_of_right {op : BinaryOp} {e : Expr}
    (h : operandBracketed op .right e = false) :
    rightStrength op ≤ e.precedence ∧ rightStrength op ≤ edge e := by
  rcases operandBracketed_eq_false h with hlt | ⟨hside, left, right, rfl⟩
  · have hle : rightStrength op ≤ op.precedence + 1 := by
      unfold rightStrength
      split <;> omega
    have := precedence_le_edge e
    omega
  · have hright : rightStrength op = op.precedence := if_pos hside
    exact ⟨Nat.le_of_eq hright, Nat.le_refl _⟩

theorem precedence_ne_negation (op : BinaryOp) : op.precedence ≠ Precedence.negation := by
  cases op with
  | compare | bits => exact of_decide_eq_true rfl
  | arith op => cases op <;> decide
  | logic op => cases op <;> decide

/-- An operand of a negation without parentheses is read whole behind the sign. -/
theorem negation_lt_of_not {e : Expr} (h : signedBracketed .not e = false) :
    Fits (Precedence.negation + 1) e ∧ Precedence.negation + 1 ≤ edge e := by
  have hle : Precedence.negation ≤ e.precedence := Nat.le_of_not_lt (of_decide_eq_false h)
  cases e with
  | binary op =>
    have hlt : Precedence.negation + 1 ≤ op.precedence :=
      Nat.lt_of_le_of_ne hle (precedence_ne_negation op).symm
    exact ⟨fits_of_le hlt, Nat.le_trans hlt (precedence_le_rightStrength op)⟩
  | _ => exact ⟨nofun, Nat.lt_of_le_of_lt hle (precedence_lt_edge nofun)⟩

/-! ## Formulas -/

section

variable {strength : Nat} {rest : List Char} {e : Expr}

/-- An operand is read in parentheses or, if it needs none, without. -/
theorem Climbs.bracket (h : Climbs declared e) (hbegins : Begins e.chars) {needed : Bool}
    (hfree : needed = false → Fits strength e ∧ Stops (edge e) rest) (hrest : Ends rest) :
    Reaches declared strength (Expr.bracket needed e.chars ++ rest) e.signed rest := by
  cases needed with
  | false =>
    obtain ⟨hfits, hstops⟩ := hfree rfl
    exact h strength rest hfits hstops hrest
  | true =>
    have htext : Expr.bracket true e.chars ++ rest = '(' :: (e.chars ++ ')' :: rest) := by
      simp [Expr.bracket]
    -- in parentheses any formula is read, for the closing one stops it
    have hinner : Reaches declared Precedence.quantifier (e.chars ++ ')' :: rest) e.signed
        (')' :: rest) :=
      h _ _ (fits_of_le (Nat.zero_le _)) (.close _ rest) (ends_cons (by decide) rest)
    rw [htext]
    refine .of_operand (by simp; omega) fun fuel hfuel => ?_
    rw [List.length_cons] at hfuel
    have hvalue : (climb declared fuel Precedence.quantifier (e.chars ++ ')' :: rest)).value
        = some (e.signed, ')' :: rest) :=
      hinner.value_climb (.close _ rest) (by omega)
    exact value_operand_parens (by rwa [(hbegins.append (')' :: rest)).dropWhile_eq]) rfl

/-- An integer constant is read back, except for the least word. -/
theorem climbs_integer {i : Int64} (h : i ≠ Int64.minValue) : Climbs declared (integer i) := by
  intro strength rest hfits hstops hrest
  rw [chars_integer]
  by_cases hneg : i < 0
  · have hsigned : (integer i).signed = minus (integer (-i)) := if_pos hneg
    have hdigits : Reaches declared (Precedence.sign + 1)
        (Decimal.digits (Word.magnitude i).toNat ++ rest) (integer (-i)) rest :=
      reaches_digits (Word.signed?_magnitude_of_neg (Word.minValue_lt h) hneg) hrest
    rw [if_pos hneg, hsigned, List.cons_append]
    exact reaches_minus hdigits ((begins_digits _).append rest) (by simp)
  · have hsigned : (integer i).signed = integer i := if_neg hneg
    rw [if_neg hneg, hsigned]
    exact reaches_digits (Word.signed?_magnitude hneg) hrest

theorem climbs_var {x : Variable} (hname : isIdentifier x.name = true) (htrue : x.name ≠ "true")
    (hfalse : x.name ≠ "false") (hdeclared : declared.find? x.name = some x) :
    Climbs declared (.var x) := by
  intro strength rest hfits hstops hrest
  refine .of_operand (by simp) fun fuel hfuel => ?_
  have hvalue := value_leaf_var hname htrue hfalse hdeclared hrest
  obtain ⟨c, cs, heq, hstart, -⟩ := exists_identifier_eq hname
  show (operand declared (fuel + 1) (x.name.toList ++ rest)).value = _
  rw [heq, List.cons_append] at hvalue ⊢
  exact value_operand_leaf hstart hvalue

theorem climbs_literal (b : Bool) : Climbs declared (literal b) := by
  intro strength rest hfits hstops hrest
  refine .of_operand (by simp) fun fuel hfuel => ?_
  have hvalue : (leaf declared ((Value.bool b).chars ++ rest)).value = some (literal b, rest) :=
    value_leaf_literal b hrest
  cases b <;> exact value_operand_leaf (by decide) hvalue

theorem climbs_negation (h : Climbs declared e) (hbegins : Begins e.chars) :
    Climbs declared (negation e) := by
  intro strength rest hfits hstops hrest
  have hoperand : Reaches declared (Precedence.negation + 1)
      (bracket (signedBracketed .not e) e.chars ++ rest) e.signed rest := by
    refine h.bracket hbegins (fun hfree => ?_) hrest
    obtain ⟨hfits, hle⟩ := negation_lt_of_not hfree
    exact ⟨hfits, hstops.mono hle⟩
  exact reaches_not hoperand hstops ((hbegins.bracket _).append rest) (by simp)

theorem climbs_minus (h : Climbs declared e) (hbegins : Begins e.chars) :
    Climbs declared (minus e) := by
  intro strength rest hfits hstops hrest
  have hoperand : Reaches declared (Precedence.sign + 1)
      (bracket (signedBracketed .minus e) e.chars ++ rest) e.signed rest := by
    refine h.bracket hbegins (fun hfree => ?_) hrest
    have hlt : Precedence.sign < e.precedence := Nat.lt_of_not_le (of_decide_eq_false hfree)
    exact ⟨fits_of_le hlt,
      stops_of_sign (Nat.le_trans (Nat.le_of_lt hlt) (precedence_le_edge e)) rest⟩
  exact reaches_minus hoperand ((hbegins.bracket _).append rest) (by simp)

/-- Two operands with an operator between them are read back if each of them is. -/
theorem climbs_binary {op : BinaryOp} {left right : Expr} (hop : op ∈ infixOps)
    (hleft : Climbs declared left) (hright : Climbs declared right) (hbegins : Begins left.chars)
    (hbegins' : Begins right.chars) : Climbs declared (.binary op left right) := by
  intro strength rest hfits hstops hrest
  have hstrength : strength ≤ op.precedence := hfits op left right rfl
  have hends := endsSymbol_space (bracket (operandBracketed op .right right) right.chars ++ rest)
  -- without parentheses the left operand ends where the operator stands
  have hreadl : Reaches declared strength (bracket (operandBracketed op .left left) left.chars
      ++ spaced op (bracket (operandBracketed op .right right) right.chars ++ rest)) left.signed
      (spaced op (bracket (operandBracketed op .right right) right.chars ++ rest)) := by
    refine hleft.bracket hbegins (fun hfree => ?_) (ends_cons (by decide) _)
    obtain ⟨hle, hlt⟩ := lt_edge_of_left hfree
    exact ⟨fits_of_le (Nat.le_trans hstrength hle), .gap hop hlt spaced_gap hends⟩
  -- without parentheses the right operand takes all that its operator leaves to it
  have hreadr : Reaches declared (rightStrength op)
      (bracket (operandBracketed op .right right) right.chars ++ rest) right.signed rest := by
    refine hright.bracket hbegins' (fun hfree => ?_) hrest
    obtain ⟨hle, hedge⟩ := rightStrength_le_of_right hfree
    exact ⟨fits_of_le hle, hstops.mono hedge⟩
  have hright' := (hbegins'.bracket (operandBracketed op .right right)).append rest
  have hread := Reaches.binary hop hstrength hreadl hreadr spaced_gap hends
    (by rw [List.dropWhile_cons_of_pos (by decide), hright'.dropWhile_eq]) hstops (by simp; omega)
  simpa [chars, signed, spaced] using hread

/-- A formula is read back from its text wherever it is an operand. -/
theorem Infix.climbs (h : e.Infix declared) (hmin : Value.int Int64.minValue ∉ e.constants) :
    Climbs declared e := by
  induction h with
  | var hname htrue hfalse hdeclared => exact climbs_var hname htrue hfalse hdeclared
  | literal b => exact climbs_literal b
  | integer i =>
    refine climbs_integer fun heq => hmin ?_
    rw [heq]
    exact List.mem_singleton_self _
  | negation h ih => exact climbs_negation (ih hmin) h.begins
  | minus h ih => exact climbs_minus (ih hmin) h.begins
  | binary hop hleft hright ihl ihr =>
    obtain ⟨hminl, hminr⟩ := not_or.1 (mt List.mem_append.2 hmin)
    exact climbs_binary (mem_infixOps hop) (ihl hminl) (ihr hminr) hleft.begins hright.begins

end

end Interpolants.Expr
