import Interpolants.Expr.Parser
import Interpolants.Proofs.Text.Reader

/-!
# Interpolants — reading operators

An operator is read off a text by its symbol, and the symbol of one operator may start the symbol of
another: `-` starts an arrow, `<` starts three symbols. `startsLike` is the relation that is left
after the lookaheads. Two facts about it are checked on the list of operators and carry everything
else: an operator is never taken for one that is tried behind it, and never for one of another
strength.
-/

namespace Interpolants.Expr

open Text Text.Reader

/-- Whether an operator is read where another one is written. -/
def startsLike (op written : BinaryOp) : Bool :=
  op.symbol.isPrefixOf written.symbol &&
    (notBehind op).all fun arrow => !arrow.isPrefixOf (written.symbol.drop op.symbol.length)

/-- Operators are tried in an order in which none hides one behind it. -/
theorem not_startsLike_of_before :
    infixOps.Pairwise fun op written => startsLike op written = false := by
  decide

/-- Only operators of one strength start alike. -/
theorem precedence_eq_of_startsLike :
    ∀ op ∈ infixOps, ∀ written ∈ infixOps, startsLike op written = true →
      op.precedence = written.precedence := by
  decide

theorem space_not_mem_symbol : ∀ op ∈ infixOps, ' ' ∉ op.symbol := by
  decide

/-- A symbol starts with a character that is no space and closes nothing. -/
theorem exists_symbol_eq (op : BinaryOp) :
    ∃ c cs, op.symbol = c :: cs ∧ isSpace c = false ∧ c ≠ ')' := by
  cases op with
  | compare op => cases op <;> exact ⟨_, _, rfl, rfl, by decide⟩
  | arith op => cases op <;> exact ⟨_, _, rfl, rfl, by decide⟩
  | logic op => cases op <;> exact ⟨_, _, rfl, rfl, by decide⟩
  | bits op => cases op <;> exact ⟨_, _, rfl, rfl, by decide⟩

/-- A text with an operator between spaces in front. -/
def spaced (op : BinaryOp) (cs : List Char) : List Char :=
  ' ' :: op.symbol ++ ' ' :: cs

/-- A text that does not continue the symbol of an operator. -/
def EndsSymbol (cs : List Char) : Prop :=
  ∀ c more, cs = c :: more → ∀ op ∈ infixOps, c ∉ op.symbol

theorem spaced_gap : [' '].all isSpace = true := rfl

theorem endsSymbol_space (cs : List Char) : EndsSymbol (' ' :: cs) := by
  rintro c more ⟨⟩
  exact space_not_mem_symbol

section

variable {op written : BinaryOp} {cs before tail : List Char}

/-- An operator is its symbol, if this is no start of an arrow, with the spaces on both sides. -/
theorem value_infixSymbol (op : BinaryOp) (cs : List Char) :
    (infixSymbol op cs).value
      = (word op.symbol (cs.dropWhile isSpace)).value.bind fun p =>
          if (notBehind op).any fun arrow => arrow.isPrefixOf p.2 then none
          else some ((), p.2.dropWhile isSpace) := by
  unfold infixSymbol
  rw [value_bind_of_some (value_spaces cs), value_bind]
  congr 1
  funext p
  cases notBehind op with
  | none => rfl
  | some arrow =>
    show ((notAhead arrow >>= fun _ => spaces) p.2).value = _
    rw [value_bind, value_notAhead, Option.any_some]
    split <;> rfl

/-- An operator is read where its symbol comes behind spaces, and no arrow begins with it. -/
theorem value_infixSymbol_eq_some_iff {u : Unit} {rest : List Char} :
    (infixSymbol op cs).value = some (u, rest) ↔
      ∃ behind, cs.dropWhile isSpace = op.symbol ++ behind ∧
        (∀ arrow ∈ notBehind op, ¬ arrow <+: behind) ∧ rest = behind.dropWhile isSpace := by
  have harrow : ∀ behind : List Char,
      ((notBehind op).any fun arrow => arrow.isPrefixOf behind) = true ↔
        ¬ ∀ arrow ∈ notBehind op, ¬ arrow <+: behind := by
    intro behind
    simp [Option.any_eq_true, List.isPrefixOf_iff_prefix]
  rw [value_infixSymbol, value_word]
  constructor
  · intro h
    split at h
    · next hahead =>
      obtain ⟨behind, hbehind⟩ := List.isPrefixOf_iff_prefix.1 hahead
      rw [← hbehind, List.drop_left, Option.bind_some] at h
      split at h
      · cases h
      · next hfree =>
        cases h
        exact ⟨behind, hbehind.symm, Decidable.not_not.1 (mt (harrow behind).2 hfree), rfl⟩
    · cases h
  · rintro ⟨behind, hbehind, hfree, rfl⟩
    -- the symbol is at the front, and no arrow behind it hides it
    have hahead : op.symbol.isPrefixOf (op.symbol ++ behind) = true :=
      List.isPrefixOf_iff_prefix.2 (List.prefix_append _ _)
    rw [hbehind, if_pos hahead, List.drop_left, Option.bind_some,
      if_neg (fun h => (harrow behind).1 h hfree)]

/-- The spaces before an operator lead to its symbol. -/
theorem dropWhile_gap (hbefore : before.all isSpace = true) (op : BinaryOp) (tail : List Char) :
    (before ++ op.symbol ++ tail).dropWhile isSpace = op.symbol ++ tail := by
  obtain ⟨c, symbol, hsymbol, hspace, -⟩ := exists_symbol_eq op
  rw [List.append_assoc, List.dropWhile_append_of_pos (List.all_eq_true.1 hbefore), hsymbol,
    List.cons_append, List.dropWhile_cons_of_neg (by simp [hspace])]

/-- What ends a symbol does not make an arrow of it. -/
theorem EndsSymbol.not_arrow (h : EndsSymbol tail) : ∀ arrow ∈ notBehind op, ¬ arrow <+: tail := by
  have hminus : ∀ more, tail ≠ '-' :: more := fun more heq =>
    h '-' more heq (.arith .minus) (by decide) (by decide)
  have hgreater : ∀ more, tail ≠ '>' :: more := fun more heq =>
    h '>' more heq (.compare .gt) (by decide) (by decide)
  rintro arrow harrow ⟨more, hmore⟩
  unfold notBehind at harrow
  split at harrow
  · cases harrow
    exact hminus _ hmore.symm
  · cases harrow
    exact hgreater _ hmore.symm
  · cases harrow

/-- An operator is read with the spaces on both sides. -/
theorem value_infixSymbol_gap (hbefore : before.all isSpace = true) (htail : EndsSymbol tail) :
    (infixSymbol op (before ++ op.symbol ++ tail)).value = some ((), tail.dropWhile isSpace) :=
  value_infixSymbol_eq_some_iff.2 ⟨tail, dropWhile_gap hbefore op tail, htail.not_arrow, rfl⟩

/-- What follows an operator ends its symbol. -/
theorem symbol_initial_of_endsSymbol (hop : op ∈ infixOps) (htail : EndsSymbol tail)
    (h : op.symbol <+: written.symbol ++ tail) : op.symbol <+: written.symbol := by
  rcases List.prefix_or_prefix_of_prefix h (List.prefix_append _ _) with hle | ⟨more, hmore⟩
  · exact hle
  · rw [← hmore, List.prefix_append_right_inj] at h
    cases more with
    | nil => exact ⟨[], by rw [← hmore, List.append_nil, List.append_nil]⟩
    | cons c more =>
      obtain ⟨rest, hrest⟩ := h
      exact absurd (by rw [← hmore]; simp) (htail c (more ++ rest) hrest.symm op hop)

/-- An operator is not read where another is written that does not start like it. -/
theorem value_infixSymbol_gap_eq_none (hop : op ∈ infixOps) (h : startsLike op written = false)
    (hbefore : before.all isSpace = true) (htail : EndsSymbol tail) :
    (infixSymbol op (before ++ written.symbol ++ tail)).value = none := by
  rw [Option.eq_none_iff_forall_ne_some]
  rintro ⟨u, rest⟩ hread
  obtain ⟨behind, hbehind, hfree, -⟩ := value_infixSymbol_eq_some_iff.1 hread
  rw [dropWhile_gap hbefore] at hbehind
  obtain ⟨more, hmore⟩ := symbol_initial_of_endsSymbol hop htail ⟨behind, hbehind.symm⟩
  -- the symbol starts the other one, so it is the lookahead that refuses it
  have hinitial : op.symbol.isPrefixOf written.symbol = true :=
    List.isPrefixOf_iff_prefix.2 ⟨more, hmore⟩
  rw [← hmore, List.append_assoc, List.append_right_inj] at hbehind
  rw [startsLike, hinitial, Bool.true_and, ← hmore, List.drop_left] at h
  cases harrow : notBehind op with
  | none =>
    rw [harrow] at h
    cases h
  | some arrow =>
    rw [harrow] at h
    have hstart : arrow <+: more := List.isPrefixOf_iff_prefix.1 (by simpa using h)
    exact hfree arrow harrow (hbehind ▸ hstart.trans (List.prefix_append more tail))

end

/-! ## Where chains of operators stop -/

/-- No operator that binds at least as strongly as asked is read at the start of a text. -/
def Stops (strength : Nat) (cs : List Char) : Prop :=
  ∀ op ∈ infixOps, strength ≤ op.precedence → (infixSymbol op cs).value = none

namespace Stops

variable {strength strength' : Nat} {cs : List Char}

/-- Where reading stops at a strength, it stops at every greater one. -/
theorem mono (h : Stops strength cs) (hle : strength ≤ strength') : Stops strength' cs :=
  fun op hop hstrength => h op hop (Nat.le_trans hle hstrength)

theorem nil (strength : Nat) : Stops strength [] := by
  intro op hop hstrength
  obtain ⟨c, symbol, hsymbol, -, -⟩ := exists_symbol_eq op
  rw [value_infixSymbol, hsymbol, List.dropWhile_nil, value_word_nil]
  rfl

theorem close (strength : Nat) (cs : List Char) : Stops strength (')' :: cs) := by
  intro op hop hstrength
  obtain ⟨c, symbol, hsymbol, -, hclose⟩ := exists_symbol_eq op
  rw [value_infixSymbol, hsymbol, List.dropWhile_cons_of_neg (by decide), value_word_of_ne hclose]
  rfl

/-- A chain stops before an operator that binds less strongly. -/
theorem gap {op : BinaryOp} {before tail : List Char} (hop : op ∈ infixOps)
    (hlt : op.precedence < strength) (hbefore : before.all isSpace = true)
    (htail : EndsSymbol tail) : Stops strength (before ++ op.symbol ++ tail) := by
  intro op' hop' hstrength
  refine value_infixSymbol_gap_eq_none hop' ?_ hbefore htail
  rw [Bool.eq_false_iff]
  intro hstarts
  have := precedence_eq_of_startsLike op' hop' op hop hstarts
  omega

end Stops

end Interpolants.Expr
