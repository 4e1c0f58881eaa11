import Interpolants.Proofs.Expr.Fuel

/-!
# Interpolants — readings of formulas

What is read off a text depends on the text alone: `climbed`, `leading` and `extended` are the
readings of the three parts of precedence climbing with fuel enough, and `Leads` and `Extends` the
rules that they follow. At most one operator is read at a place together with its right operand
(`eq_of_follow`), so the order in which operators are tried does not show in the rules.
-/

namespace Interpolants.Expr

open Text Text.Reader

variable {declared : Registry}

/-! ## Enough fuel -/

/-- A text that climbing at a strength takes a formula off, and what is left of it. -/
def climbed (declared : Registry) (strength : Nat) (cs : List Char) : Option (Expr × List Char) :=
  (climb declared (2 * cs.length + 2) strength cs).value

/-- The operand in front of a text, and what is left of it. -/
def leading (declared : Registry) (cs : List Char) : Option (Expr × List Char) :=
  (operand declared (2 * cs.length + 1) cs).value

/-- A left operand with the operators behind it, and what is left of the text. -/
def extended (declared : Registry) (strength : Nat) (left : Expr) (cs : List Char) :
    Option (Expr × List Char) :=
  (extend declared (2 * cs.length + 1) strength left cs).value

/-- The right operand of an operator in front of a text, and what is left of it. -/
def follow (declared : Registry) (op : BinaryOp) (cs : List Char) : Option (Expr × List Char) :=
  (infixSymbol op cs).value.bind fun p => climbed declared (rightStrength op) p.2

section

variable {fuel strength : Nat} {cs rest mid : List Char} {e left right : Expr} {op op' : BinaryOp}

/-- Fuel beyond the length of the text does not change what is read. -/
theorem value_climb (h : 2 * cs.length + 2 ≤ fuel) :
    (climb declared fuel strength cs).value = climbed declared strength cs :=
  (sameUpTo_climb cs.length).1 _ _ h (Nat.le_refl _) strength cs (Nat.le_refl _)

/-- Fuel beyond the length of the text does not change the operand in front. -/
theorem value_operand (h : 2 * cs.length + 1 ≤ fuel) :
    (operand declared fuel cs).value = leading declared cs :=
  (sameUpTo_climb cs.length).2.1 _ _ h (Nat.le_refl _) cs (Nat.le_refl _)

/-- Fuel beyond the length of the text does not change what is read behind an operand. -/
theorem value_extend_eq (h : 2 * cs.length + 1 ≤ fuel) :
    (extend declared fuel strength left cs).value = extended declared strength left cs :=
  (sameUpTo_climb cs.length).2.2 _ _ h (Nat.le_refl _) strength left cs (Nat.le_refl _)

theorem length_of_leading (h : leading declared cs = some (e, rest)) : rest.length ≤ cs.length :=
  (shortens_climb _).2.1 _ _ _ _ (Nat.le_refl _) h

/-- A formula is read as an operand and what extends it. -/
theorem climbed_eq_some_iff : climbed declared strength cs = some (e, rest) ↔
    ∃ left mid, leading declared cs = some (left, mid) ∧
      extended declared strength left mid = some (e, rest) := by
  rw [climbed, climb, value_bind_eq_some_iff]
  refine exists₂_congr fun left mid => and_congr_right fun h => ?_
  rw [value_extend_eq (by have := length_of_leading h; omega)]

/-- An operator with its right operand is put on the left one. -/
theorem value_extension (h : 2 * cs.length ≤ fuel) :
    (extension declared fuel left op cs).value
      = (follow declared op cs).map fun p => (.binary op left p.1, p.2) := by
  unfold extension follow
  rw [value_bind]
  cases hsymbol : (infixSymbol op cs).value with
  | none => rfl
  | some result =>
    have := length_of_infixSymbol hsymbol
    rw [Option.bind_some, Option.bind_some, value_bind, value_climb (by omega)]
    cases climbed declared (rightStrength op) result.2 <;> rfl

/-- What an operand is, which shows at its first character. -/
inductive Leads (declared : Registry) : List Char → Expr → List Char → Prop where
  | not {cs rest : List Char} {e : Expr}
    (h : climbed declared (Precedence.negation + 1) (cs.dropWhile isSpace) = some (e, rest)) :
    Leads declared ('!' :: cs) (negation e) rest
  | minus {cs rest : List Char} {e : Expr}
    (h : climbed declared (Precedence.sign + 1) (cs.dropWhile isSpace) = some (e, rest)) :
    Leads declared ('-' :: cs) (minus e) rest
  | numeral {cs rest : List Char} {e : Expr} (h : (numeral cs).value = some (e, rest)) :
    Leads declared cs e rest
  | leaf {cs rest : List Char} {e : Expr} (h : (leaf declared cs).value = some (e, rest)) :
    Leads declared cs e rest
  | parens {cs mid rest : List Char} {e : Expr}
    (h : climbed declared Precedence.quantifier (cs.dropWhile isSpace) = some (e, mid))
    (hclose : mid.dropWhile isSpace = ')' :: rest) : Leads declared ('(' :: cs) e rest

/-- Only a text that starts with a digit is read as a numeral. -/
theorem exists_cons_of_value_numeral (h : (numeral cs).value = some (e, rest)) :
    ∃ c more, cs = c :: more ∧ c.isDigit = true := by
  obtain ⟨c, mid, hone, -⟩ := value_bind_eq_some_iff.1 h
  obtain ⟨rfl, hc⟩ := value_one_eq_some_iff.1 hone
  exact ⟨c, mid, rfl, hc⟩

/-- Only a text that starts an identifier is read as a literal or a variable. -/
theorem exists_cons_of_value_leaf (h : (leaf declared cs).value = some (e, rest)) :
    ∃ c more, cs = c :: more ∧ isIdentStart c = true := by
  obtain ⟨name, mid, hname, -⟩ := value_bind_eq_some_iff.1 h
  obtain ⟨c, mid', hone, -⟩ := value_bind_eq_some_iff.1 hname
  obtain ⟨rfl, hc⟩ := value_one_eq_some_iff.1 hone
  exact ⟨c, mid', rfl, hc⟩

/-- The fuel that is left behind one character is enough for the text behind it. -/
theorem value_climb_behind (c : Char) (cs : List Char) :
    (climb declared (2 * (c :: cs).length) strength (cs.dropWhile isSpace)).value
      = climbed declared strength (cs.dropWhile isSpace) := by
  have hskip : (cs.dropWhile isSpace).length ≤ cs.length := List.length_dropWhile_le ..
  exact value_climb (by rw [List.length_cons]; omega)

/-- Each way to lead a text is taken by the reader of operands. -/
theorem Leads.value_operand (h : Leads declared cs e rest) :
    (operand declared (2 * cs.length + 1) cs).value = some (e, rest) := by
  cases h with
  | not h => exact value_operand_not (by rwa [value_climb_behind])
  | minus h => exact value_operand_minus (by rwa [value_climb_behind])
  | numeral h =>
    obtain ⟨c, more, rfl, hc⟩ := exists_cons_of_value_numeral h
    exact value_operand_numeral hc h
  | leaf h =>
    obtain ⟨c, more, rfl, hc⟩ := exists_cons_of_value_leaf h
    exact value_operand_leaf hc h
  | parens h hclose => exact value_operand_parens (by rwa [value_climb_behind]) hclose

/-- **The operands that are read are those by the rules**, and no others. -/
theorem leading_eq_some_iff : leading declared cs = some (e, rest) ↔ Leads declared cs e rest := by
  refine ⟨fun h => ?_, Leads.value_operand⟩
  rw [leading, operand] at h
  obtain ⟨reader, hreader, h⟩ := exists_of_value_firstOf h
  simp only [List.mem_cons, List.not_mem_nil, or_false] at hreader
  -- the readers in the order in which they are tried
  rcases hreader with rfl | rfl | rfl | rfl | rfl
  · obtain ⟨_, cs, hword, h⟩ := value_bind_eq_some_iff.1 h
    obtain rfl := value_word_singleton_iff.1 hword
    rw [value_bind_of_some (value_spaces cs)] at h
    obtain ⟨e, mid, hclimb, h⟩ := value_bind_eq_some_iff.1 h
    cases h
    exact .not (by rwa [value_climb_behind] at hclimb)
  · obtain ⟨_, cs, hword, h⟩ := value_bind_eq_some_iff.1 h
    obtain rfl := value_word_singleton_iff.1 hword
    rw [value_bind_of_some (value_spaces cs)] at h
    obtain ⟨e, mid, hclimb, h⟩ := value_bind_eq_some_iff.1 h
    cases h
    exact .minus (by rwa [value_climb_behind] at hclimb)
  · exact .numeral h
  · exact .leaf h
  · obtain ⟨_, cs, hword, h⟩ := value_bind_eq_some_iff.1 h
    obtain rfl := value_word_singleton_iff.1 hword
    rw [value_bind_of_some (value_spaces cs)] at h
    obtain ⟨e', mid, hclimb, h⟩ := value_bind_eq_some_iff.1 h
    rw [value_bind_of_some (value_spaces mid)] at h
    obtain ⟨_, rest', hclose, h⟩ := value_bind_eq_some_iff.1 h
    cases h
    exact .parens (by rwa [value_climb_behind] at hclimb) (value_word_singleton_iff.1 hclose)

/-! ## Operators -/

/-- Of two operators that are read at one place, one starts the other. -/
theorem startsLike_of_both (h : (infixSymbol op cs).value ≠ none)
    (h' : (infixSymbol op' cs).value ≠ none) :
    startsLike op op' = true ∨ startsLike op' op = true := by
  have hone : ∀ {op op' : BinaryOp} {behind behind' : List Char},
      op.symbol ++ behind = op'.symbol ++ behind' → (∀ arrow ∈ notBehind op, ¬ arrow <+: behind) →
      op.symbol <+: op'.symbol → startsLike op op' = true := by
    rintro op op' behind behind' heq hfree ⟨more, hmore⟩
    rw [← hmore, List.append_assoc, List.append_right_inj] at heq
    have hinitial : op.symbol.isPrefixOf op'.symbol = true :=
      List.isPrefixOf_iff_prefix.2 ⟨more, hmore⟩
    rw [startsLike, hinitial, Bool.true_and, ← hmore, List.drop_left, Option.all_eq_true]
    intro arrow harrow
    rw [Bool.not_eq_true', Bool.eq_false_iff, Ne, List.isPrefixOf_iff_prefix]
    exact fun hstart => hfree arrow harrow (heq ▸ hstart.trans (List.prefix_append more behind'))
  obtain ⟨⟨u, rest⟩, h⟩ := Option.ne_none_iff_exists'.1 h
  obtain ⟨⟨u', rest'⟩, h'⟩ := Option.ne_none_iff_exists'.1 h'
  obtain ⟨behind, heq, hfree, -⟩ := value_infixSymbol_eq_some_iff.1 h
  obtain ⟨behind', heq', hfree', -⟩ := value_infixSymbol_eq_some_iff.1 h'
  have hsame := heq.symm.trans heq'
  -- of two symbols at the front of one text, one starts with the other
  rcases List.prefix_or_prefix_of_prefix (List.prefix_append op.symbol behind)
    ⟨behind', hsame.symm⟩ with hle | hle
  · exact .inl (hone hsame hfree hle)
  · exact .inr (hone hsame.symm hfree' hle)

/-- Two operators that both stand at the front of a text bind equally strongly. -/
theorem precedence_eq_of_both (hop : op ∈ infixOps) (hop' : op' ∈ infixOps)
    (h : (infixSymbol op cs).value ≠ none) (h' : (infixSymbol op' cs).value ≠ none) :
    op.precedence = op'.precedence := by
  rcases startsLike_of_both h h' with hstarts | hstarts
  · exact precedence_eq_of_startsLike op hop op' hop' hstarts
  · exact (precedence_eq_of_startsLike op' hop' op hop hstarts).symm

/-- What an operator leaves of a longer one is no operand. -/
theorem symbol_eq_of_startsLike : ∀ op ∈ infixOps, ∀ op' ∈ infixOps, startsLike op op' = true →
    op = op' ∨ op'.symbol = op.symbol ++ ['='] := by
  decide

/-- No operand starts with an equals sign. -/
theorem leading_equals (cs : List Char) : leading declared ('=' :: cs) = none := by
  rw [Option.eq_none_iff_forall_ne_some]
  rintro ⟨e, rest⟩ h
  cases leading_eq_some_iff.1 h with
  | numeral h =>
    obtain ⟨_, _, ⟨⟩, hc⟩ := exists_cons_of_value_numeral h
    exact absurd hc (by decide)
  | leaf h =>
    obtain ⟨_, _, ⟨⟩, hc⟩ := exists_cons_of_value_leaf h
    exact absurd hc (by decide)

/-- A right operand follows the symbol of its operator, which no arrow continues. -/
theorem follow_eq_some_iff : follow declared op cs = some (right, rest) ↔
    ∃ behind, cs.dropWhile isSpace = op.symbol ++ behind ∧
      (∀ arrow ∈ notBehind op, ¬ arrow <+: behind) ∧
      climbed declared (rightStrength op) (behind.dropWhile isSpace) = some (right, rest) := by
  rw [follow, Option.bind_eq_some_iff]
  constructor
  · rintro ⟨⟨u, mid⟩, hsymbol, hclimb⟩
    obtain ⟨behind, heq, hfree, rfl⟩ := value_infixSymbol_eq_some_iff.1 hsymbol
    exact ⟨behind, heq, hfree, hclimb⟩
  · rintro ⟨behind, heq, hfree, hclimb⟩
    exact ⟨((), _), value_infixSymbol_eq_some_iff.2 ⟨behind, heq, hfree, rfl⟩, hclimb⟩

/-- An operator with a right operand stands in front of the text. -/
theorem value_infixSymbol_ne_none_of_follow (h : follow declared op cs = some (right, rest)) :
    (infixSymbol op cs).value ≠ none := by
  intro hnone
  rw [follow, hnone] at h
  cases h

/-- **At most one operator is read** at a place together with its right operand. -/
theorem eq_of_follow {right' : Expr} {rest' : List Char} (hop : op ∈ infixOps)
    (hop' : op' ∈ infixOps) (h : follow declared op cs = some (right, rest))
    (h' : follow declared op' cs = some (right', rest')) : op = op' := by
  have hone : ∀ {op op' : BinaryOp} {right right' : Expr} {rest rest' : List Char}, op ∈ infixOps →
      op' ∈ infixOps → follow declared op cs = some (right, rest) →
      follow declared op' cs = some (right', rest') → startsLike op op' = true → op = op' := by
    intro op op' right right' rest rest' hop hop' h h' hstarts
    refine (symbol_eq_of_startsLike op hop op' hop' hstarts).resolve_right fun hsymbol => ?_
    obtain ⟨behind, heq, -, hclimb⟩ := follow_eq_some_iff.1 h
    obtain ⟨behind', heq', -, -⟩ := follow_eq_some_iff.1 h'
    -- an equals sign is left of the longer symbol, and no operand starts with it
    rw [heq, hsymbol, List.append_assoc, List.append_right_inj] at heq'
    subst heq'
    obtain ⟨left, mid, hleading, -⟩ := climbed_eq_some_iff.1 hclimb
    have hskip : ('=' :: behind').dropWhile isSpace = '=' :: behind' :=
      List.dropWhile_cons_of_neg (by decide)
    rw [List.singleton_append, hskip, leading_equals] at hleading
    cases hleading
  rcases startsLike_of_both (value_infixSymbol_ne_none_of_follow h)
    (value_infixSymbol_ne_none_of_follow h') with hstarts | hstarts
  · exact hone hop hop' h h' hstarts
  · exact (hone hop' hop h' h hstarts).symm

/-- Extending a left operand: no operator is read that binds strongly enough, or one is and
extending goes on behind its right operand. -/
inductive Extends (declared : Registry) (strength : Nat) :
    Expr → List Char → Expr → List Char → Prop where
  | stop {left : Expr} {cs : List Char}
    (h : ∀ op ∈ infixOps, strength ≤ op.precedence → follow declared op cs = none) :
    Extends declared strength left cs left cs
  | more {left right e : Expr} {op : BinaryOp} {cs mid rest : List Char} (hop : op ∈ infixOps)
    (hstrength : strength ≤ op.precedence) (h : follow declared op cs = some (right, mid))
    (hmore : Extends declared strength (.binary op left right) mid e rest) :
    Extends declared strength left cs e rest

/-- A left operand without operators behind it is the whole formula. -/
theorem extended_of_stop
    (h : ∀ op ∈ infixOps, strength ≤ op.precedence → follow declared op cs = none) :
    extended declared strength left cs = some (left, cs) := by
  rw [extended, value_extend, value_firstOf_eq_none]
  intro reader hreader
  obtain ⟨op, hop, rfl⟩ := List.mem_map.1 hreader
  obtain ⟨hop, hstrength⟩ := List.mem_filter.1 hop
  rw [value_extension (Nat.le_refl _), h op hop (of_decide_eq_true hstrength)]
  rfl

/-- A right operand leaves less of the text than there was. -/
theorem length_of_follow (h : follow declared op cs = some (right, rest)) :
    rest.length < cs.length := by
  obtain ⟨⟨u, mid⟩, hsymbol, hclimb⟩ := Option.bind_eq_some_iff.1 h
  exact Nat.lt_of_le_of_lt ((shortens_climb _).1 _ _ _ _ _ (Nat.le_refl _) hclimb)
    (length_of_infixSymbol hsymbol)

/-- An operator with its right operand makes a longer left operand. -/
theorem extended_of_follow (hop : op ∈ infixOps) (hstrength : strength ≤ op.precedence)
    (h : follow declared op cs = some (right, mid)) :
    extended declared strength left cs
      = extended declared strength (.binary op left right) mid := by
  have hread : (extension declared (2 * cs.length) left op cs).value
      = some (.binary op left right, mid) := by
    rw [value_extension (Nat.le_refl _), h]
    rfl
  have hmem : extension declared (2 * cs.length) left op ∈ (infixOps.filter fun op =>
      decide (strength ≤ op.precedence)).map (extension declared (2 * cs.length) left) :=
    List.mem_map_of_mem (List.mem_filter.2 ⟨hop, decide_eq_true hstrength⟩)
  rw [extended, value_extend]
  cases hfirst : (firstOf ((infixOps.filter fun op => decide (strength ≤ op.precedence)).map
      (extension declared (2 * cs.length) left)) cs).value with
  | none => exact absurd hfirst (value_firstOf_ne_none hmem (by simp [hread]))
  | some result =>
    -- it is the only operator that is read here
    obtain ⟨reader, hreader, hread'⟩ := exists_of_value_firstOf hfirst
    obtain ⟨op', hop', rfl⟩ := List.mem_map.1 hreader
    rw [value_extension (Nat.le_refl _), Option.map_eq_some_iff] at hread'
    obtain ⟨⟨right', mid'⟩, hfollow, rfl⟩ := hread'
    obtain rfl := eq_of_follow hop (List.mem_filter.1 hop').1 h hfollow
    rw [h] at hfollow
    cases hfollow
    have hless := length_of_follow h
    refine value_extend_eq ?_
    dsimp only
    omega

/-- **What is read behind a left operand is what the rules allow**, and nothing else. -/
theorem extended_eq_some_iff : extended declared strength left cs = some (e, rest) ↔
    Extends declared strength left cs e rest := by
  constructor
  · intro h
    induction hn : cs.length using Nat.strongRecOn generalizing left cs with
    | ind n ih =>
      by_cases hmore : ∃ op ∈ infixOps, strength ≤ op.precedence ∧ follow declared op cs ≠ none
      · -- what is left behind the right operand is shorter
        obtain ⟨op, hop, hstrength, hfollow⟩ := hmore
        obtain ⟨⟨right, mid⟩, hfollow⟩ := Option.ne_none_iff_exists'.1 hfollow
        rw [extended_of_follow hop hstrength hfollow] at h
        exact .more hop hstrength hfollow (ih _ (hn ▸ length_of_follow hfollow) h rfl)
      · have hstop : ∀ op ∈ infixOps, strength ≤ op.precedence → follow declared op cs = none :=
          fun op hop hstrength => by_contra fun h => hmore ⟨op, hop, hstrength, h⟩
        rw [extended_of_stop hstop] at h
        cases h
        exact .stop hstop
  · intro h
    induction h with
    | stop h => exact extended_of_stop h
    | more hop hstrength h _ ih => rw [extended_of_follow hop hstrength h, ih]

end

end Interpolants.Expr
