import Interpolants.Proofs.Expr.Climbing

/-!
# Interpolants — fuel for reading formulas

Fuel bounds how deep precedence climbing may go, and the length of a text says how much is enough:
what is read off a text is the same with all fuels that are (`sameUpTo_climb`).
-/

namespace Interpolants.Expr

open Text Text.Reader

variable {declared : Registry}

/-! ## What every part of the algorithm keeps -/

theorem any_isDigit_symbol : ∀ op ∈ infixOps, op.symbol.any Char.isDigit = false := by
  decide

/-- What the readers of tokens keep of a text, precedence climbing keeps. -/
theorem keeps_climb_of {good : List Char → Prop} (hspaces : Keeps good spaces)
    (hword : ∀ expected, expected.any Char.isDigit = false → Keeps good (word expected))
    (hnumeral : Keeps good numeral) (hidentifier : Keeps good identifier) (fuel : Nat) :
    (∀ strength, Keeps good (climb declared fuel strength)) ∧
      Keeps good (operand declared fuel) ∧
      ∀ strength left, Keeps good (extend declared fuel strength left) := by
  have hsymbol : ∀ op ∈ infixOps, Keeps good (infixSymbol op) := by
    intro op hop
    refine hspaces.bind fun _ => (hword _ (any_isDigit_symbol op hop)).bind fun _ => ?_
    split
    · exact (Keeps.notAhead _).bind fun _ => hspaces
    · exact hspaces
  have hleaf : Keeps good (leaf declared) := by
    refine hidentifier.bind fun name => ?_
    split
    · exact .pure _
    · split
      · exact .pure _
      · split
        · exact .pure _
        · exact .fail
  -- the three parts of the algorithm call each other with less fuel
  induction fuel with
  | zero => exact ⟨fun _ => .fail, .fail, fun _ _ => .fail⟩
  | succ fuel ih =>
    obtain ⟨hclimb, hoperand, hextend⟩ := ih
    refine ⟨fun strength => ?_, ?_, fun strength left => ?_⟩
    · rw [climb]
      exact hoperand.bind (hextend strength)
    · rw [operand]
      refine .firstOf fun reader hreader => ?_
      simp only [List.mem_cons, List.not_mem_nil, or_false] at hreader
      rcases hreader with rfl | rfl | rfl | rfl | rfl
      · exact (hword _ rfl).bind fun _ => hspaces.bind fun _ => (hclimb _).bind fun _ => .pure _
      · exact (hword _ rfl).bind fun _ => hspaces.bind fun _ => (hclimb _).bind fun _ => .pure _
      · exact hnumeral
      · exact hleaf
      · exact (hword _ rfl).bind fun _ => hspaces.bind fun _ => (hclimb _).bind fun _ =>
          hspaces.bind fun _ => (hword _ rfl).bind fun _ => .pure _
    · rw [extend]
      refine Keeps.bind (.optional (.firstOf fun reader hreader => ?_)) fun result => ?_
      · obtain ⟨op, hop, rfl⟩ := List.mem_map.1 hreader
        exact (hsymbol op (List.mem_filter.1 hop).1).bind fun _ => (hclimb _).bind fun _ => .pure _
      · cases result with
        | some e => exact hextend strength e
        | none => exact .pure _

/-! ## Fuel -/

/-- What is left behind a numeral is not longer than the text. -/
theorem shortens_numeral : Shortens numeral := by
  intro n
  refine (shortens_one _ n).bind fun first => (shortens_takeWhile _ n).bind fun more => ?_
  split
  · exact .pure _
  · exact .fail

theorem shortens_identifier : Shortens identifier := fun n =>
  (shortens_one _ n).bind fun _ => (shortens_takeWhile _ n).bind fun _ => .pure _

/-- What is left behind an operand, with operators behind it or without, is not longer than the
text. -/
theorem shortens_climb (fuel : Nat) :
    (∀ strength, Shortens (climb declared fuel strength)) ∧ Shortens (operand declared fuel) ∧
      ∀ strength left, Shortens (extend declared fuel strength left) := by
  have hall : ∀ n, (∀ strength, Keeps (fun cs => cs.length ≤ n) (climb declared fuel strength)) ∧
      Keeps (fun cs => cs.length ≤ n) (operand declared fuel) ∧
      ∀ strength left, Keeps (fun cs => cs.length ≤ n) (extend declared fuel strength left) :=
        fun n =>
    keeps_climb_of (shortens_spaces n) (fun expected _ => shortens_word expected n)
      (shortens_numeral n)
      (shortens_identifier n) fuel
  exact ⟨fun strength n => (hall n).1 strength, fun n => (hall n).2.1,
    fun strength left n => (hall n).2.2 strength left⟩

/-- An operator is not empty. -/
theorem length_of_infixSymbol {op : BinaryOp} {cs rest : List Char} {u : Unit}
    (h : (infixSymbol op cs).value = some (u, rest)) : rest.length < cs.length := by
  obtain ⟨behind, hbehind, -, rfl⟩ := value_infixSymbol_eq_some_iff.1 h
  obtain ⟨c, symbol, hsymbol, -, -⟩ := exists_symbol_eq op
  have hskip : (behind.dropWhile isSpace).length ≤ behind.length := List.length_dropWhile_le ..
  have hskip' : (cs.dropWhile isSpace).length ≤ cs.length := List.length_dropWhile_le ..
  rw [hbehind, hsymbol, List.length_append, List.length_cons] at hskip'
  omega

section

variable {n fuel fuel' : Nat}

/-- Operands of a length are read alike with two amounts of fuel if shorter texts are. -/
theorem sameUpTo_operand (h : ∀ m < n, ∀ strength,
    SameUpTo m (climb declared fuel strength) (climb declared fuel' strength)) :
    SameUpTo n (operand declared (fuel + 1)) (operand declared (fuel' + 1)) := by
  have hshort : ∀ strength, Shortens (climb declared fuel strength) := (shortens_climb fuel).1
  rw [operand, operand]
  refine .firstOf (.cons ?not (.cons ?minus (.cons ?numeral (.cons ?leaf (.cons ?parens .nil)))))
  case not =>
    refine .behind (consumes_word _ _) fun _ m hm => ?_
    exact (SameUpTo.refl spaces).bind shortens_spaces fun _ =>
      (h m hm _).bind (hshort _) fun _ => .refl _
  case minus =>
    refine .behind (consumes_word _ _) fun _ m hm => ?_
    exact (SameUpTo.refl spaces).bind shortens_spaces fun _ =>
      (h m hm _).bind (hshort _) fun _ => .refl _
  case numeral => exact .refl _
  case leaf => exact .refl _
  case parens =>
    refine .behind (consumes_word _ _) fun _ m hm => ?_
    exact (SameUpTo.refl spaces).bind shortens_spaces fun _ =>
      (h m hm _).bind (hshort _) fun _ => .refl _

/-- A right operand is read alike with two amounts of fuel if shorter texts are: it is shorter than
the text that starts with its operator. -/
theorem sameUpTo_extension {left : Expr} {op : BinaryOp} (h : ∀ m < n, ∀ strength,
    SameUpTo m (climb declared fuel strength) (climb declared fuel' strength)) :
    SameUpTo n (extension declared fuel left op) (extension declared fuel' left op) :=
  .behind (fun _ _ _ => length_of_infixSymbol) fun _ m hm =>
    (h m hm _).bind ((shortens_climb fuel).1 _) fun _ => .refl _

theorem length_of_extension {left e : Expr} {op : BinaryOp} {cs rest : List Char}
    (h : (extension declared fuel left op cs).value = some (e, rest)) :
    rest.length < cs.length := by
  obtain ⟨u, mid, hsymbol, h⟩ := value_bind_eq_some_iff.1 h
  obtain ⟨right, rest', hright, h⟩ := value_bind_eq_some_iff.1 h
  cases h
  exact Nat.lt_of_le_of_lt ((shortens_climb fuel).1 _ _ _ _ _ (Nat.le_refl _) hright)
    (length_of_infixSymbol hsymbol)

/-- What comes behind a left operand is read alike with two amounts of fuel if shorter texts are. -/
theorem sameUpTo_extend {strength : Nat} (h : ∀ m < n, ∀ strength,
      SameUpTo m (climb declared fuel strength) (climb declared fuel' strength))
    (hextend : ∀ m < n, ∀ left,
      SameUpTo m (extend declared fuel strength left) (extend declared fuel' strength left))
    (left : Expr) :
    SameUpTo n (extend declared (fuel + 1) strength left)
      (extend declared (fuel' + 1) strength left) := by
  intro cs hcs
  have hreaders : ∀ ops : List BinaryOp, List.Forall₂ (SameUpTo n)
      (ops.map (extension declared fuel left)) (ops.map (extension declared fuel' left)) :=
    fun ops => List.forall₂_map_left_iff.2 (List.forall₂_map_right_iff.2
      (List.forall₂_same.2 fun op _ => sameUpTo_extension h))
  rw [value_extend, value_extend, ← SameUpTo.firstOf (hreaders _) cs hcs]
  cases hvalue : (firstOf ((infixOps.filter fun op => decide (strength ≤ op.precedence)).map
      (extension declared fuel left)) cs).value with
  | none => rfl
  | some result =>
    obtain ⟨e, rest⟩ := result
    -- an operator has taken a character, so both go on in a shorter text
    obtain ⟨reader, hreader, hread⟩ := exists_of_value_firstOf hvalue
    obtain ⟨op, -, rfl⟩ := List.mem_map.1 hreader
    exact hextend rest.length (Nat.lt_of_lt_of_le (length_of_extension hread) hcs) e rest
      (Nat.le_refl _)

end

/-- **Fuel does not matter** for texts that it is enough for. -/
theorem sameUpTo_climb (n : Nat) :
    (∀ fuel fuel', 2 * n + 2 ≤ fuel → 2 * n + 2 ≤ fuel' → ∀ strength,
      SameUpTo n (climb declared fuel strength) (climb declared fuel' strength)) ∧
    (∀ fuel fuel', 2 * n + 1 ≤ fuel → 2 * n + 1 ≤ fuel' →
      SameUpTo n (operand declared fuel) (operand declared fuel')) ∧
    ∀ fuel fuel', 2 * n + 1 ≤ fuel → 2 * n + 1 ≤ fuel' → ∀ strength left,
      SameUpTo n (extend declared fuel strength left) (extend declared fuel' strength left) := by
  induction n using Nat.strongRecOn with
  | ind n ih =>
    -- a climb inside of another part reads a shorter text
    have hclimb : ∀ {fuel fuel'}, 2 * n ≤ fuel → 2 * n ≤ fuel' → ∀ m < n, ∀ strength,
        SameUpTo m (climb declared fuel strength) (climb declared fuel' strength) :=
      fun h h' m hm => (ih m hm).1 _ _ (by omega) (by omega)
    have hoperand : ∀ fuel fuel', 2 * n + 1 ≤ fuel → 2 * n + 1 ≤ fuel' →
        SameUpTo n (operand declared fuel) (operand declared fuel') := by
      intro fuel fuel' h h'
      obtain ⟨fuel, rfl⟩ : ∃ f, fuel = f + 1 := ⟨fuel - 1, by omega⟩
      obtain ⟨fuel', rfl⟩ : ∃ f, fuel' = f + 1 := ⟨fuel' - 1, by omega⟩
      exact sameUpTo_operand (hclimb (by omega) (by omega))
    have hextend : ∀ fuel fuel', 2 * n + 1 ≤ fuel → 2 * n + 1 ≤ fuel' → ∀ strength left,
        SameUpTo n (extend declared fuel strength left) (extend declared fuel' strength left) := by
      intro fuel fuel' h h' strength
      obtain ⟨fuel, rfl⟩ : ∃ f, fuel = f + 1 := ⟨fuel - 1, by omega⟩
      obtain ⟨fuel', rfl⟩ : ∃ f, fuel' = f + 1 := ⟨fuel' - 1, by omega⟩
      exact sameUpTo_extend (hclimb (by omega) (by omega))
        fun m hm => (ih m hm).2.2 _ _ (by omega) (by omega) strength
    refine ⟨fun fuel fuel' h h' strength => ?_, hoperand, hextend⟩
    obtain ⟨fuel, rfl⟩ : ∃ f, fuel = f + 1 := ⟨fuel - 1, by omega⟩
    obtain ⟨fuel', rfl⟩ : ∃ f, fuel' = f + 1 := ⟨fuel' - 1, by omega⟩
    rw [climb, climb]
    exact (hoperand fuel fuel' (by omega) (by omega)).bind (shortens_climb fuel).2.1
      (hextend fuel fuel' (by omega) (by omega) strength)

end Interpolants.Expr
