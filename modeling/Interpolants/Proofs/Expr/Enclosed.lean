import Interpolants.Proofs.Expr.Reading

/-!
# Interpolants — formulas in parentheses

A text that is read as a formula is read in the same way when a closing parenthesis comes behind it.
What could change is an operator whose right operand could not be read for want of a parenthesis;
but reading stops before such an operator for good (`Stuck`), so that the text was not read to its
end.
-/

namespace Interpolants.Expr

open Text Text.Reader

variable {declared : Registry}

/-! ## Tokens before a parenthesis -/

section

variable {cs more rest : List Char} {op : BinaryOp} {e : Expr}

/-- A run of characters ends before a parenthesis at the latest. -/
theorem span_append_close {p : Char → Bool} (hp : p ')' = false) (cs more : List Char) :
    (cs ++ ')' :: more).takeWhile p = cs.takeWhile p ∧
      (cs ++ ')' :: more).dropWhile p = cs.dropWhile p ++ ')' :: more := by
  induction cs with
  | nil => simp [hp]
  | cons c cs ih =>
    rw [List.cons_append, List.takeWhile_cons, List.takeWhile_cons, List.dropWhile_cons,
      List.dropWhile_cons, ih.1, ih.2]
    cases p c <;> exact ⟨rfl, rfl⟩

theorem dropWhile_append_close (cs more : List Char) :
    (cs ++ ')' :: more).dropWhile isSpace = cs.dropWhile isSpace ++ ')' :: more :=
  (span_append_close (by decide) cs more).2

/-- A parenthesis behind the text makes no symbol stand at its front. -/
theorem prefix_append_close_iff {expected : List Char} (h : ')' ∉ expected) :
    expected <+: cs ++ ')' :: more ↔ expected <+: cs := by
  refine ⟨fun hahead => ?_, fun hahead => hahead.trans (List.prefix_append _ _)⟩
  rcases List.prefix_or_prefix_of_prefix hahead (List.prefix_append _ _) with hle | ⟨behind, rfl⟩
  · exact hle
  · rw [List.prefix_append_right_inj] at hahead
    cases behind with
    | nil => simp
    | cons c behind =>
      obtain rfl := (List.cons_prefix_cons.1 hahead).1
      simp at h

theorem close_not_mem_symbol : ∀ op ∈ infixOps, ')' ∉ op.symbol := by
  decide

theorem close_not_mem_arrow {arrow : List Char} (h : arrow ∈ notBehind op) : ')' ∉ arrow := by
  unfold notBehind at h
  split at h <;> cases h <;> decide

/-- An operator is read before a parenthesis exactly if it is read without. -/
theorem value_infixSymbol_append_close (hop : op ∈ infixOps) (cs more : List Char) :
    (infixSymbol op (cs ++ ')' :: more)).value
      = (infixSymbol op cs).value.map fun p => (p.1, p.2 ++ ')' :: more) := by
  refine Option.ext fun result => ?_
  obtain ⟨u, rest⟩ := result
  rw [Option.map_eq_some_iff, value_infixSymbol_eq_some_iff, dropWhile_append_close]
  constructor
  · rintro ⟨behind, heq, hfree, rfl⟩
    -- no symbol holds a parenthesis, so it stands in the text before it
    have hahead : op.symbol <+: cs.dropWhile isSpace :=
      (prefix_append_close_iff (close_not_mem_symbol op hop)).1 ⟨behind, heq.symm⟩
    obtain ⟨behind', heq'⟩ := hahead
    rw [← heq', List.append_assoc, List.append_right_inj] at heq
    subst heq
    refine ⟨((), behind'.dropWhile isSpace), value_infixSymbol_eq_some_iff.2 ⟨behind', heq'.symm,
      fun arrow harrow => ?_, rfl⟩, ?_⟩
    · exact mt (prefix_append_close_iff (close_not_mem_arrow harrow)).2 (hfree arrow harrow)
    · rw [dropWhile_append_close]
  · rintro ⟨⟨u', rest'⟩, hread, hsame⟩
    obtain ⟨behind, heq, hfree, rfl⟩ := value_infixSymbol_eq_some_iff.1 hread
    cases hsame
    refine ⟨behind ++ ')' :: more, by rw [heq, List.append_assoc], fun arrow harrow => ?_,
      (dropWhile_append_close behind more).symm⟩
    exact mt (prefix_append_close_iff (close_not_mem_arrow harrow)).1 (hfree arrow harrow)

/-- A numeral is read before a parenthesis as without it. -/
theorem value_numeral_append_close (h : (numeral cs).value = some (e, rest)) :
    (numeral (cs ++ ')' :: more)).value = some (e, rest ++ ')' :: more) := by
  obtain ⟨c, cs, rfl, hc⟩ := exists_cons_of_value_numeral h
  obtain ⟨htake, hdrop⟩ := span_append_close (p := Char.isDigit) (by decide) cs more
  unfold numeral at h ⊢
  rw [value_bind_of_some (value_one_of_pos hc cs), value_bind_of_some (value_takeWhile _ cs)] at h
  rw [List.cons_append, value_bind_of_some (value_one_of_pos hc _),
    value_bind_of_some (value_takeWhile _ _), htake, hdrop]
  cases hword : Word.signed? (Decimal.value (c :: cs.takeWhile Char.isDigit)) with
  | none =>
    rw [hword] at h
    cases h
  | some i =>
    rw [hword] at h
    cases h
    rfl

/-- An identifier is read before a parenthesis as without it. -/
theorem value_identifier_append_close {name : String}
    (h : (identifier cs).value = some (name, rest)) :
    (identifier (cs ++ ')' :: more)).value = some (name, rest ++ ')' :: more) := by
  obtain ⟨c, mid, hone, hname⟩ := value_bind_eq_some_iff.1 h
  obtain ⟨rfl, hc⟩ := value_one_eq_some_iff.1 hone
  obtain ⟨htake, hdrop⟩ := span_append_close (p := isIdentChar) (by decide) mid more
  rw [value_bind_of_some (value_takeWhile _ mid)] at hname
  cases hname
  unfold identifier
  rw [List.cons_append, value_bind_of_some (value_one_of_pos hc _),
    value_bind_of_some (value_takeWhile _ _), htake, hdrop]
  rfl

/-- A variable or a literal is read before a parenthesis as without it. -/
theorem value_leaf_append_close (h : (leaf declared cs).value = some (e, rest)) :
    (leaf declared (cs ++ ')' :: more)).value = some (e, rest ++ ')' :: more) := by
  obtain ⟨name, mid, hname, h⟩ := value_bind_eq_some_iff.1 h
  unfold leaf
  rw [value_bind_of_some (value_identifier_append_close hname)]
  -- behind the name nothing is read any more
  split at h
  · next htrue =>
    cases h
    rw [if_pos htrue]
    rfl
  · next htrue =>
    split at h
    · next hfalse =>
      cases h
      rw [if_neg htrue, if_pos hfalse]
      rfl
    · next hfalse =>
      rw [if_neg htrue, if_neg hfalse]
      cases hfind : declared.find? name with
      | none =>
        rw [hfind] at h
        cases h
      | some v =>
        rw [hfind] at h
        cases h
        rfl

end

/-! ## Operators without a right operand -/

/-- A text at which reading stops for good: there is an operator, but no right operand to it. -/
def Stuck (declared : Registry) (cs : List Char) : Prop :=
  (∃ op ∈ infixOps, (infixSymbol op cs).value ≠ none) ∧
  ∀ op ∈ infixOps, follow declared op cs = none

section

variable {strength : Nat} {cs more rest : List Char} {left e : Expr}

/-- Reading may go on at a text that is over but for a parenthesis. -/
theorem not_stuck_of_dropWhile (h : ∀ c rest, cs.dropWhile isSpace = c :: rest → c = ')') :
    ¬ Stuck declared cs := by
  rintro ⟨⟨op, -, hread⟩, -⟩
  obtain ⟨⟨u, rest⟩, hread⟩ := Option.ne_none_iff_exists'.1 hread
  obtain ⟨behind, heq, -, -⟩ := value_infixSymbol_eq_some_iff.1 hread
  obtain ⟨c, symbol, hsymbol, -, hclose⟩ := exists_symbol_eq op
  rw [hsymbol, List.cons_append] at heq
  exact hclose (h _ _ heq)

/-- Nothing is read behind an operand at a text where reading is stuck. -/
theorem Extends.rest_eq_of_stuck (h : Extends declared strength left cs e rest)
    (hcs : Stuck declared cs) : rest = cs := by
  cases h with
  | stop => rfl
  | more hop _ h _ =>
    rw [hcs.2 _ hop] at h
    cases h

/-- Where reading goes on later, no operator is left out that binds strongly enough. -/
theorem stops_of_not_stuck (hcs : ¬ Stuck declared cs)
    (h : ∀ op ∈ infixOps, strength ≤ op.precedence → follow declared op cs = none) :
    Stops strength cs := by
  intro op hop hstrength
  by_contra hread
  refine hcs ⟨⟨op, hop, hread⟩, fun op' hop' => ?_⟩
  rw [Option.eq_none_iff_forall_ne_some]
  rintro ⟨right, mid⟩ hfollow
  -- an operator that is read with its operand binds as strongly
  have hsame := precedence_eq_of_both hop hop' hread (value_infixSymbol_ne_none_of_follow hfollow)
  rw [h op' hop' (hsame ▸ hstrength)] at hfollow
  cases hfollow

/-- Where reading stops, it stops before a parenthesis too. -/
theorem Stops.append_close (h : Stops strength cs) (more : List Char) :
    Stops strength (cs ++ ')' :: more) := by
  intro op hop hstrength
  rw [value_infixSymbol_append_close hop, h op hop hstrength]
  rfl

/-- Where reading stops, no operator has a right operand. -/
theorem Stops.follow_eq_none (h : Stops strength cs) :
    ∀ op ∈ infixOps, strength ≤ op.precedence → follow declared op cs = none := by
  intro op hop hstrength
  rw [follow, h op hop hstrength]
  rfl

end

/-! ## Formulas before a parenthesis -/

/-- Texts shorter than `n` are read in the same way when a closing parenthesis comes behind them. -/
def Encloses (declared : Registry) (more : List Char) (n : Nat) : Prop :=
  ∀ strength cs e rest, cs.length < n → climbed declared strength cs = some (e, rest) →
    ¬ Stuck declared rest →
    climbed declared strength (cs ++ ')' :: more) = some (e, rest ++ ')' :: more)

section

variable {n strength : Nat} {cs more rest : List Char} {left e : Expr}

/-- An operand is read before a parenthesis as without it, if shorter texts are. -/
theorem Leads.append_close (hn : Encloses declared more n) (h : Leads declared cs e rest)
    (hcs : cs.length ≤ n) (hrest : ¬ Stuck declared rest) :
    Leads declared (cs ++ ')' :: more) e (rest ++ ')' :: more) := by
  -- behind a sign or a parenthesis the text is shorter, and the spaces at its front do not count
  have hbehind : ∀ {c : Char} {cs rest : List Char} {strength : Nat} {e : Expr},
      (c :: cs).length ≤ n →
      climbed declared strength (cs.dropWhile isSpace) = some (e, rest) → ¬ Stuck declared rest →
      climbed declared strength ((cs ++ ')' :: more).dropWhile isSpace)
        = some (e, rest ++ ')' :: more) := by
    intro c cs rest strength e hcs h hrest
    rw [dropWhile_append_close]
    have hskip : (cs.dropWhile isSpace).length ≤ cs.length := List.length_dropWhile_le ..
    exact hn strength _ e rest (Nat.lt_of_le_of_lt hskip hcs) h hrest
  cases h with
  | not h => exact .not (hbehind hcs h hrest)
  | minus h => exact .minus (hbehind hcs h hrest)
  | numeral h => exact .numeral (value_numeral_append_close h)
  | leaf h => exact .leaf (value_leaf_append_close h)
  | parens h hclose =>
    -- reading is not stuck at the inner parenthesis
    refine .parens (hbehind hcs h (not_stuck_of_dropWhile fun c more heq => ?_))
      (by rw [dropWhile_append_close, hclose]; rfl)
    rw [hclose] at heq
    cases heq
    rfl

/-- Operators and their operands are read before a parenthesis as without it, if shorter texts
are. -/
theorem Extends.append_close (hn : Encloses declared more n)
    (h : Extends declared strength left cs e rest) (hcs : cs.length ≤ n)
    (hrest : ¬ Stuck declared rest) :
    Extends declared strength left (cs ++ ')' :: more) e (rest ++ ')' :: more) := by
  induction h with
  | stop h => exact .stop ((stops_of_not_stuck hrest h).append_close more).follow_eq_none
  | @more left right e op cs mid rest hop hstrength h hmore ih =>
    have hmid : ¬ Stuck declared mid := fun hmid => hrest (hmore.rest_eq_of_stuck hmid ▸ hmid)
    have hless := length_of_follow h
    have hfollow : follow declared op (cs ++ ')' :: more) = some (right, mid ++ ')' :: more) := by
      obtain ⟨⟨u, behind⟩, hsymbol, hclimb⟩ := Option.bind_eq_some_iff.1 h
      rw [follow, value_infixSymbol_append_close hop, hsymbol]
      exact hn _ _ _ _ (Nat.lt_of_lt_of_le (length_of_infixSymbol hsymbol) hcs) hclimb hmid
    exact .more hop hstrength hfollow (ih (by omega) hrest)

end

/-- Reading up to a parenthesis is reading as if nothing came behind, by induction on the length of
the text. -/
theorem encloses (more : List Char) (n : Nat) : Encloses declared more n := by
  induction n with
  | zero => nofun
  | succ n ih =>
    intro strength cs e rest hcs h hrest
    obtain ⟨left, mid, hleading, hextended⟩ := climbed_eq_some_iff.1 h
    have hextends := extended_eq_some_iff.1 hextended
    have hmid : ¬ Stuck declared mid := fun hmid => hrest (hextends.rest_eq_of_stuck hmid ▸ hmid)
    have hless := length_of_leading hleading
    exact climbed_eq_some_iff.2 ⟨left, mid ++ ')' :: more,
      leading_eq_some_iff.2 ((leading_eq_some_iff.1 hleading).append_close ih (by omega) hmid),
      extended_eq_some_iff.2 (hextends.append_close ih (by omega) hrest)⟩

/-- **A formula in parentheses is an operand**, whatever comes behind it. -/
theorem leads_of_parse {s : String} {e : Expr} (h : parse declared s = .ok e) (more : List Char) :
    Leads declared ('(' :: s.toList ++ ')' :: more) e more := by
  obtain ⟨rest, hread, hrest⟩ := exists_of_run_eq_ok h
  have hclimb : climbed declared Precedence.quantifier (s.toList.dropWhile isSpace)
      = some (e, rest) :=
    hread
  have hstuck : ¬ Stuck declared rest := not_stuck_of_dropWhile fun c more heq => by
    rw [hrest] at heq
    cases heq
  have henclosed := encloses more _ _ _ _ _ (Nat.lt_succ_self _) hclimb hstuck
  rw [← dropWhile_append_close] at henclosed
  exact .parens henclosed (by rw [dropWhile_append_close, hrest]; rfl)

end Interpolants.Expr
