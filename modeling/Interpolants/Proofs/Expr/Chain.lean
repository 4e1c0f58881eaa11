import Interpolants.Proofs.Expr.Enclosed
import Mathlib.Data.List.MinMax

/-!
# Interpolants — chains of operators

What a chain of operands and infix operators stands for is a rule about the whole chain (`Grouped`):
it is split at an operator of the loosest precedence in it, at the first arrow if there is one among
these, and else at the last of them. Precedence climbing never sees a whole chain. It agrees with
the rule because the part in front of the split has no operator that would reach over it, and the
part behind has only such that the climb opened by the split takes in.
-/

namespace Interpolants.Expr

open Text Text.Reader

/-! ## The rule -/

/-- The place at which the rule splits a chain: an operator of the loosest precedence in it, which
is the first arrow if there are arrows of this precedence, and else the last operator of it. -/
structure SplitsAt (before : List BinaryOp) (op : BinaryOp) (behind : List BinaryOp) : Prop where
  loosest : ∀ o ∈ before ++ behind, op.precedence ≤ o.precedence
  first : op = .logic .implies → ∀ o ∈ before, o ≠ .logic .implies
  noArrow : op ≠ .logic .implies →
    ∀ o ∈ before ++ behind, o.precedence = op.precedence → o ≠ .logic .implies
  last : op ≠ .logic .implies → ∀ o ∈ behind, o.precedence ≠ op.precedence

instance (before : List BinaryOp) (op : BinaryOp) (behind : List BinaryOp) :
    Decidable (SplitsAt before op behind) :=
  decidable_of_iff ((∀ o ∈ before ++ behind, op.precedence ≤ o.precedence) ∧
      (op = .logic .implies → ∀ o ∈ before, o ≠ .logic .implies) ∧
      (op ≠ .logic .implies →
        ∀ o ∈ before ++ behind, o.precedence = op.precedence → o ≠ .logic .implies) ∧
      (op ≠ .logic .implies → ∀ o ∈ behind, o.precedence ≠ op.precedence))
    ⟨fun ⟨loosest, first, noArrow, last⟩ => ⟨loosest, first, noArrow, last⟩,
      fun h => ⟨h.loosest, h.first, h.noArrow, h.last⟩⟩

/-- The formula that a first operand stands for together with the operators and operands behind
it. -/
inductive Grouped : Expr → List (BinaryOp × Expr) → Expr → Prop where
  | operand (e : Expr) : Grouped e [] e
  | split {op : BinaryOp} {first second left right : Expr} {before behind : List (BinaryOp × Expr)}
    (h : SplitsAt (before.map Prod.fst) op (behind.map Prod.fst))
    (hleft : Grouped first before left) (hright : Grouped second behind right) :
    Grouped first (before ++ (op, second) :: behind) (.binary op left right)

/-- No infix operator is looser than the arrow. -/
theorem implication_le_precedence (op : BinaryOp) :
    BinaryOp.precedence (.logic .implies) ≤ op.precedence := by
  cases op with
  | compare | bits => exact of_decide_eq_true rfl
  | arith op => cases op <;> decide
  | logic op => cases op <;> decide

/-- The rule finds a place in every chain that has operators. -/
theorem exists_splitsAt {ops : List BinaryOp} (h : ops ≠ []) :
    ∃ before op behind, ops = before ++ op :: behind ∧ SplitsAt before op behind := by
  by_cases harrow : .logic .implies ∈ ops
  · obtain ⟨before, behind, heq, hfirst⟩ := List.eq_append_cons_of_mem harrow
    exact ⟨before, _, behind, heq, fun o _ => implication_le_precedence o,
      fun _ o ho hsame => hfirst (hsame ▸ ho), fun hne => absurd rfl hne, fun hne => absurd rfl hne⟩
  · obtain ⟨loosest, hloosest⟩ := Option.ne_none_iff_exists'.1
      (mt List.argmin_eq_none.1 h : ops.argmin BinaryOp.precedence ≠ none)
    have hle : ∀ o ∈ ops, loosest.precedence ≤ o.precedence := fun o ho =>
      List.le_of_mem_argmin ho hloosest
    -- the last operator of its level is the first one from behind
    have hlevel : ∃ o ∈ ops.reverse, (o.precedence == loosest.precedence) = true :=
      ⟨loosest, List.mem_reverse.2 (List.argmin_mem hloosest), beq_self_eq_true _⟩
    obtain ⟨op, hlast⟩ := Option.isSome_iff_exists.1 (List.find?_isSome.2 hlevel)
    obtain ⟨hop, behind, before, heq, hbehind⟩ := List.find?_eq_some_iff_append.1 hlast
    have hop : op.precedence = loosest.precedence := eq_of_beq hop
    have heq : ops = before.reverse ++ op :: behind.reverse := by
      rw [← List.reverse_reverse ops, heq]
      simp
    have hmem : ∀ o ∈ before.reverse ++ behind.reverse, o ∈ ops := by
      intro o ho
      rw [heq]
      grind
    refine ⟨_, op, _, heq, fun o ho => hop ▸ hle o (hmem o ho), ?_, ?_, fun _ o ho => ?_⟩
    · rintro rfl
      exact absurd (by rw [heq]; simp) harrow
    · rintro - o ho - rfl
      exact harrow (hmem _ ho)
    · rw [hop]
      simpa using hbehind o (List.mem_reverse.1 ho)

/-- The rule groups every chain. -/
theorem exists_grouped (first : Expr) (ops : List (BinaryOp × Expr)) :
    ∃ e, Grouped first ops e := by
  induction hn : ops.length using Nat.strongRecOn generalizing first ops with
  | ind n ih =>
    by_cases hne : ops = []
    · subst hne
      exact ⟨first, .operand first⟩
    · obtain ⟨before, op, behind, heq, hsplits⟩ := exists_splitsAt (mt List.map_eq_nil_iff.1 hne)
      obtain ⟨before, tail, rfl, rfl, htail⟩ := List.map_eq_append_iff.1 heq
      obtain ⟨⟨op, second⟩, behind, rfl, rfl, rfl⟩ := List.map_eq_cons_iff.1 htail
      rw [List.length_append, List.length_cons] at hn
      obtain ⟨left, hleft⟩ := ih before.length (by omega) first before rfl
      obtain ⟨right, hright⟩ := ih behind.length (by omega) second behind rfl
      exact ⟨_, .split hsplits hleft hright⟩

/-! ## Texts of chains -/

/-- The texts of operands without a sign, with the formulas that they stand for. -/
inductive Atomic (declared : Registry) : List Char → Expr → Prop where
  | var {x : Variable} (hname : isIdentifier x.name = true) (htrue : x.name ≠ "true")
    (hfalse : x.name ≠ "false") (hdeclared : declared.find? x.name = some x) :
    Atomic declared x.name.toList (.var x)
  | literal (b : Bool) : Atomic declared (Value.bool b).chars (literal b)
  | numeral {cs : List Char} {i : Int64} (hne : cs ≠ []) (hcs : Decimal.isNumeral cs = true)
    (hi : Word.signed? (Decimal.value cs) = some i) : Atomic declared cs (integer i)
  | parens {s : String} {e : Expr} (h : parse declared s = .ok e) :
    Atomic declared ('(' :: s.toList ++ [')']) e

/-- An operand of a chain. -/
structure Operand (declared : Registry) where
  chars : List Char
  tree : Expr
  atomic : Atomic declared chars tree

/-- An infix operator of a chain with spaces or none around it, and the operand behind it. -/
structure Link (declared : Registry) where
  before : List Char
  op : BinaryOp
  behind : List Char
  operand : Operand declared
  hbefore : before.all isSpace = true
  hop : op ∈ infixOps
  hbehind : behind.all isSpace = true

/-- What a link is to the rule. -/
def Link.term {declared : Registry} (link : Link declared) : BinaryOp × Expr :=
  (link.op, link.operand.tree)

/-- The text of a chain. -/
def chainChars {declared : Registry} (first : Operand declared) : List (Link declared) → List Char
  | [] => first.chars
  | link :: links =>
    first.chars ++ (link.before ++ link.op.symbol ++ (link.behind ++ chainChars link.operand links))

variable {declared : Registry} {cs rest : List Char} {e : Expr}

/-- An operand without a sign is read at any strength. -/
theorem reaches_atomic {strength : Nat} (h : Atomic declared cs e) (hrest : Ends rest) :
    Reaches declared strength (cs ++ rest) e rest := by
  have hstops : Stops (Precedence.leaf + 1) rest := stops_of_sign (by decide) rest
  cases h with
  | var hname htrue hfalse hdeclared =>
    exact climbs_var hname htrue hfalse hdeclared strength rest nofun hstops hrest
  | literal b => exact climbs_literal b strength rest nofun hstops hrest
  | numeral hne hcs hi => exact reaches_numeral hne hcs hi hrest
  | @parens s e h =>
    have hleads := leads_of_parse h rest
    have htext : '(' :: s.toList ++ [')'] ++ rest = '(' :: s.toList ++ ')' :: rest := by simp
    rw [htext]
    refine .of_operand (by simp; omega) fun fuel hfuel => ?_
    rw [value_operand (by omega)]
    exact leading_eq_some_iff.2 hleads

/-- An operand starts with a character of an identifier or with a parenthesis. -/
theorem Atomic.exists_cons (h : Atomic declared cs e) :
    ∃ c more, cs = c :: more ∧ (isIdentChar c = true ∨ c = '(') := by
  cases h with
  | var hname =>
    obtain ⟨c, cs, heq, hstart, -⟩ := exists_identifier_eq hname
    exact ⟨c, cs, heq, .inl (by rw [isIdentChar, hstart]; rfl)⟩
  | literal b => cases b <;> exact ⟨_, _, rfl, .inl (by decide)⟩
  | numeral hne hcs =>
    obtain ⟨c, more, rfl, hc, -⟩ := exists_cons_of_isNumeral hne hcs
    exact ⟨c, more, rfl, .inl (isIdentChar_of_isDigit hc)⟩
  | parens => exact ⟨'(', _, rfl, .inr rfl⟩

/-- A chain starts as its first operand does. -/
theorem exists_cons_chainChars (first : Operand declared) (links : List (Link declared)) :
    ∃ c more, chainChars first links = c :: more ∧ (isIdentChar c = true ∨ c = '(') := by
  obtain ⟨c, more, heq, hc⟩ := first.atomic.exists_cons
  cases links with
  | nil => exact ⟨c, more, heq, hc⟩
  | cons link links => exact ⟨c, _, by rw [chainChars, heq, List.cons_append], hc⟩

theorem begins_chainChars (first : Operand declared) (links : List (Link declared)) :
    Begins (chainChars first links) := by
  obtain ⟨c, more, heq, hc⟩ := exists_cons_chainChars first links
  refine ⟨c, more, heq, ?_⟩
  rcases hc with hc | rfl
  · exact isSpace_of_isIdentChar hc
  · decide

/-- The text of a chain that is cut at one of its operators. -/
theorem chainChars_append (first : Operand declared) (before behind : List (Link declared))
    (link : Link declared) :
    chainChars first (before ++ link :: behind)
      = chainChars first before ++
        (link.before ++ link.op.symbol ++ (link.behind ++ chainChars link.operand behind)) := by
  induction before generalizing first with
  | nil => rfl
  | cons l before ih => simp only [List.cons_append, chainChars, ih, List.append_assoc]

/-! ## Links -/

theorem all_symbol : ∀ op ∈ infixOps,
    (op.symbol.all fun c => !isSpace c && !isIdentChar c && c != '(') = true := by
  decide

/-- The symbols are made of characters that stand in no space, no name and no parenthesis. -/
theorem symbol_chars {op : BinaryOp} (hop : op ∈ infixOps) {c : Char} (hc : c ∈ op.symbol) :
    isSpace c = false ∧ isIdentChar c = false ∧ c ≠ '(' := by
  have hall := List.all_eq_true.1 (all_symbol op hop) c hc
  simpa [and_assoc] using hall

/-- The text behind an operator of a chain does not make its symbol longer. -/
theorem Link.endsSymbol (link : Link declared) (links : List (Link declared)) (rest : List Char) :
    EndsSymbol (link.behind ++ (chainChars link.operand links ++ rest)) := by
  obtain ⟨c, more, heq, hc⟩ := exists_cons_chainChars link.operand links
  intro c' more' heq' op hop hmem
  obtain ⟨hspace, hident, hopen⟩ := symbol_chars hop hmem
  have hbehind := link.hbehind
  rw [heq] at heq'
  cases hgap : link.behind with
  | nil =>
    rw [hgap] at heq'
    obtain ⟨rfl, -⟩ := List.cons.inj heq'
    -- the operand comes right behind, and no symbol has a character it can start with
    rcases hc with hc | hc
    · rw [hident] at hc
      cases hc
    · exact hopen hc
  | cons d gap =>
    rw [hgap] at heq' hbehind
    obtain ⟨rfl, -⟩ := List.cons.inj heq'
    have hd : isSpace d = true := List.all_eq_true.1 hbehind d List.mem_cons_self
    rw [hspace] at hd
    cases hd

/-- The operand before an operator of a chain is over where the operator begins. -/
theorem Link.ends (link : Link declared) (tail : List Char) :
    Ends (link.before ++ link.op.symbol ++ tail) := by
  intro c more heq
  obtain ⟨d, symbol, hsymbol, -, -⟩ := exists_symbol_eq link.op
  cases hgap : link.before with
  | nil =>
    rw [hgap, hsymbol] at heq
    obtain ⟨rfl, -⟩ := List.cons.inj heq
    exact (symbol_chars link.hop (hsymbol ▸ List.mem_cons_self)).2.1
  | cons d' gap =>
    rw [hgap] at heq
    obtain ⟨rfl, -⟩ := List.cons.inj heq
    have hspace : isSpace d' = true :=
      List.all_eq_true.1 link.hbefore d' (hgap ▸ List.mem_cons_self)
    rw [Bool.eq_false_iff]
    intro hident
    rw [isSpace_of_isIdentChar hident] at hspace
    cases hspace

/-- The spaces behind an operator lead to the operand. -/
theorem dropWhile_behind (link : Link declared) (links : List (Link declared)) (rest : List Char) :
    (link.behind ++ (chainChars link.operand links ++ rest)).dropWhile isSpace
      = chainChars link.operand links ++ rest := by
  rw [List.dropWhile_append_of_pos (List.all_eq_true.1 link.hbehind),
    ((begins_chainChars link.operand links).append rest).dropWhile_eq]

/-! ## Reading chains -/

theorem rightStrength_of_ne {op : BinaryOp} (h : op ≠ .logic .implies) :
    rightStrength op = op.precedence + 1 := by
  cases op with
  | compare | arith | bits => rfl
  | logic op =>
    cases op with
    | implies => exact absurd rfl h
    | _ => rfl

namespace SplitsAt

variable {op : BinaryOp} {before behind : List BinaryOp}

/-- Climbs that operators in front of the split have opened end there. -/
theorem lt_rightStrength (h : SplitsAt before op behind) :
    ∀ o ∈ before, op.precedence < rightStrength o := by
  intro o ho
  have hle := h.loosest o (List.mem_append_left _ ho)
  rcases Nat.lt_or_eq_of_le hle with hlt | heq
  · exact Nat.lt_of_lt_of_le hlt (precedence_le_rightStrength o)
  · -- an arrow of the same precedence would be split at first
    have hne : o ≠ .logic .implies := by
      by_cases hop : op = .logic .implies
      · exact h.first hop o ho
      · exact h.noArrow hop o (List.mem_append_left _ ho) heq.symm
    rw [rightStrength_of_ne hne]
    omega

/-- The climb that the split opens takes in the operators behind it. -/
theorem rightStrength_le (h : SplitsAt before op behind) :
    ∀ o ∈ behind, rightStrength op ≤ o.precedence := by
  intro o ho
  by_cases hop : op = .logic .implies
  · subst hop
    exact implication_le_precedence o
  · have hle := h.loosest o (List.mem_append_right _ ho)
    have hne := h.last hop o ho
    rw [rightStrength_of_ne hop]
    omega

end SplitsAt

/-- A chain is read as the rule groups it, wherever its operators bind strongly enough and all
climbs that they open end behind it. -/
theorem Grouped.reaches {tree : Expr} {ops : List (BinaryOp × Expr)} (h : Grouped tree ops e)
    {first : Operand declared} {links : List (Link declared)} (hfirst : first.tree = tree)
    (hlinks : links.map Link.term = ops) {strength : Nat}
    (hstrength : ∀ o ∈ ops, strength ≤ o.1.precedence)
    (hstops : ∀ o ∈ ops, Stops (rightStrength o.1) rest) (hrest : Ends rest) :
    Reaches declared strength (chainChars first links ++ rest) e rest := by
  induction h generalizing first links strength rest with
  | operand tree =>
    obtain rfl := List.map_eq_nil_iff.1 hlinks
    exact hfirst ▸ reaches_atomic first.atomic hrest
  | @split op _ second left right before behind hsplits _ _ ihl ihr =>
    obtain ⟨before, tail, rfl, rfl, htail⟩ := List.map_eq_append_iff.1 hlinks
    obtain ⟨link, behind, rfl, hlink, rfl⟩ := List.map_eq_cons_iff.1 htail
    obtain ⟨rfl, hsecond⟩ := Prod.mk.inj hlink
    have hmem : (link.op, second) ∈ before.map Link.term ++ (link.op, second)
        :: behind.map Link.term := by
      simp
    -- the left part ends at the operator: it binds too loosely for the climbs that are open there
    have hleft : Reaches declared strength (chainChars first before ++
        (link.before ++ link.op.symbol
          ++ (link.behind ++ (chainChars link.operand behind ++ rest)))) left
        (link.before ++ link.op.symbol
          ++ (link.behind ++ (chainChars link.operand behind ++ rest))) :=
      ihl hfirst rfl (fun o ho => hstrength o (List.mem_append_left _ ho))
        (fun o ho => .gap link.hop (hsplits.lt_rightStrength o.1 (List.mem_map_of_mem ho))
          link.hbefore
          (link.endsSymbol behind rest)) (link.ends _)
    have hright : Reaches declared (rightStrength link.op) (chainChars link.operand behind ++ rest)
        right rest :=
      ihr hsecond rfl (fun o ho => hsplits.rightStrength_le o.1 (List.mem_map_of_mem ho))
        (fun o ho => hstops o (List.mem_append_right _ (List.mem_cons_of_mem _ ho))) hrest
    have hread := Reaches.binary link.hop (hstrength _ hmem) hleft hright link.hbefore
      (link.endsSymbol behind rest) (dropWhile_behind link behind rest) (hstops _ hmem)
      (by simp; omega)
    simpa [chainChars_append] using hread

/-- **Chains are read by the rule.** A chain of operands and infix operators, with any spaces around
the operators, is a formula: the one that splitting at the loosest operators gives. -/
theorem parse_chain (first : Operand declared) (links : List (Link declared)) :
    (∃ e, Grouped first.tree (links.map Link.term) e) ∧
      ∀ e, Grouped first.tree (links.map Link.term) e →
        parse declared (String.ofList (chainChars first links)) = .ok e := by
  refine ⟨exists_grouped _ _, fun e h => ?_⟩
  have hread : Reaches declared Precedence.quantifier (chainChars first links ++ []) e [] :=
    h.reaches rfl rfl (fun o _ => Nat.zero_le _) (fun o _ => .nil _) ends_nil
  rw [List.append_nil] at hread
  have hvalue : (formula declared ((chainChars first links).dropWhile isSpace)).value
      = some (e, []) := by
    rw [(begins_chainChars first links).dropWhile_eq]
    exact hread.value_climb (.nil _) (Nat.le_refl _)
  unfold parse
  rw [String.toList_ofList]
  exact run_eq_ok hvalue rfl

/-- Two arrows, with operators that bind more strongly between them. -/
theorem parse_chain_arrows :
    let x : Variable := ⟨"x", .integer⟩
    let p : Variable := ⟨"p", .bool⟩
    let declared := Registry.ofList [x, p]
    let sum := arith .plus (.var x) (integer 7)
    parse declared "p -> x<=( x )+ 007 ->true"
      = .ok
        (logic .implies (.var p) (logic .implies (compare .le (.var x) sum) (literal true))) := by
  intro x p declared sum
  let first : Operand declared :=
    ⟨_, .var p, .var (by decide) (by decide) (by decide) (by decide)⟩
  let second : Operand declared :=
    ⟨_, .var x, .var (by decide) (by decide) (by decide) (by decide)⟩
  let links : List (Link declared) := [
    ⟨[' '], .logic .implies, [' '], second, rfl, by decide, rfl⟩,
    ⟨[], .compare .le, [], ⟨_, .var x, .parens (s := " x ") (by decide +kernel)⟩,
      rfl, by decide, rfl⟩,
    ⟨[], .arith .plus, [' '],
      ⟨['0', '0', '7'], integer 7, .numeral (by decide) (by decide) (by decide)⟩,
      rfl, by decide, rfl⟩,
    ⟨[' '], .logic .implies, [], ⟨_, literal true, .literal true⟩, rfl, by decide, rfl⟩]
  have hsum : Grouped (.var x) ([] ++ (.arith .plus, integer 7) :: []) sum :=
    .split (by decide) (.operand _) (.operand _)
  have hle : Grouped (.var x) ([] ++ (.compare .le, .var x) :: [(.arith .plus, integer 7)])
      (compare .le (.var x) sum) :=
    .split (by decide) (.operand _) hsum
  have hright : Grouped (.var x) ([(.compare .le, .var x), (.arith .plus, integer 7)] ++
      (.logic .implies, literal true) :: [])
      (logic .implies (compare .le (.var x) sum) (literal true)) :=
    .split (by decide) hle (.operand _)
  have h : Grouped (.var p) ([] ++ (.logic .implies, .var x) ::
        [(.compare .le, .var x), (.arith .plus, integer 7), (.logic .implies, literal true)])
      (logic .implies (.var p) (logic .implies (compare .le (.var x) sum) (literal true))) :=
    .split (by decide) (.operand _) hright
  have htext : String.ofList (chainChars first links) = "p -> x<=( x )+ 007 ->true" := by
    decide +kernel
  rw [← htext]
  exact (parse_chain first links).2 _ h

end Interpolants.Expr
