import Interpolants.Proofs.Expr.Compound

/-!
# Interpolants — what is read as a formula

Not every formula has a text. What is read is built from declared variables, truth values and
numerals without a sign by signs and infix operators, whatever the text and wherever its parentheses
are (`Plain`). Numerals have no sign, so nothing is lost in print: a formula that has been read is
read back as it is.
-/

namespace Interpolants.Expr

open Text Text.Reader

variable {declared : Registry}

/-! ## Formulas without negative constants -/

/-- No integer constant of a formula is negative. -/
def Unsigned (e : Expr) : Prop :=
  ∀ i, Value.int i ∈ e.constants → 0 ≤ i.toInt

section

variable {e left right : Expr}

theorem unsigned_binary_iff {op : BinaryOp} :
    Unsigned (.binary op left right) ↔ left.Unsigned ∧ right.Unsigned := by
  constructor
  · intro h
    exact ⟨fun i hi => h i (List.mem_append_left _ hi),
      fun i hi => h i (List.mem_append_right _ hi)⟩
  · rintro ⟨hleft, hright⟩ i hi
    rcases List.mem_append.1 hi with hi | hi
    · exact hleft i hi
    · exact hright i hi

/-- Without negative constants there is no sign to be put in front of one. -/
theorem signed_eq_of_unsigned (h : e.Unsigned) : e.signed = e := by
  induction e with
  | const c =>
    cases c with
    | int i =>
      have hpos : 0 ≤ i.toInt := h i (List.mem_singleton_self _)
      have hneg : ¬ i < 0 := by
        rw [Word.neg_iff]
        omega
      exact if_neg hneg
    | bool | bitvec => rfl
  | unary op e ih => exact congrArg (Expr.unary op) (ih h)
  | binary op left right ihl ihr =>
    obtain ⟨hleft, hright⟩ := unsigned_binary_iff.1 h
    rw [signed, ihl hleft, ihr hright]
  | var | cast | quantified => rfl

theorem minValue_not_mem_of_unsigned (h : e.Unsigned) : Value.int Int64.minValue ∉ e.constants :=
  fun hmem => absurd (h _ hmem) (by decide)

end

/-- A formula that a text can stand for. -/
structure Plain (declared : Registry) (e : Expr) : Prop where
  fragment : e.Infix declared
  unsigned : e.Unsigned

namespace Plain

variable {e left right : Expr}

theorem negation (h : Plain declared e) : Plain declared (negation e) :=
  ⟨.negation h.fragment, h.unsigned⟩

theorem minus (h : Plain declared e) : Plain declared (minus e) :=
  ⟨.minus h.fragment, h.unsigned⟩

/-- Two plain formulas with an operator that can be written make a plain one. -/
theorem binary {op : BinaryOp} (hop : op ∈ infixOps) (hleft : Plain declared left)
    (hright : Plain declared right) : Plain declared (.binary op left right) := by
  have hbits : ∀ op ∈ infixOps, ∀ bits, op ≠ .bits bits := by
    intro op hop bits hsame
    subst hsame
    cases bits <;> exact absurd hop (by decide)
  exact ⟨.binary (hbits op hop) hleft.fragment hright.fragment,
    unsigned_binary_iff.2 ⟨hleft.unsigned, hright.unsigned⟩⟩

end Plain

/-! ## What is read -/

section

variable {strength : Nat} {cs rest : List Char} {left e : Expr}

/-- What is read as an identifier is one. -/
theorem isIdentifier_of_value_identifier {name : String}
    (h : (identifier cs).value = some (name, rest)) : isIdentifier name = true := by
  obtain ⟨c, mid, hone, h⟩ := value_bind_eq_some_iff.1 h
  obtain ⟨-, hstart⟩ := value_one_eq_some_iff.1 hone
  obtain ⟨more, rest', hmore, h⟩ := value_bind_eq_some_iff.1 h
  cases h
  obtain ⟨-, hall, -⟩ := value_takeWhile_eq_some_iff.1 hmore
  rw [isIdentifier, String.toList_ofList]
  exact Bool.and_eq_true_iff.2 ⟨hstart, List.all_eq_true.2 hall⟩

/-- A numeral is read as a constant that is not negative. -/
theorem plain_of_value_numeral (h : (numeral cs).value = some (e, rest)) : Plain declared e := by
  obtain ⟨c, mid, -, h⟩ := value_bind_eq_some_iff.1 h
  obtain ⟨more, rest', -, h⟩ := value_bind_eq_some_iff.1 h
  cases hword : Word.signed? (Decimal.value (c :: more)) with
  | none =>
    rw [hword] at h
    cases h
  | some i =>
    rw [hword] at h
    cases h
    refine ⟨.integer i, fun i' hi' => ?_⟩
    obtain rfl : i' = i := Value.int.inj (List.mem_singleton.1 hi')
    rw [Word.signed?_eq_some_iff.1 hword]
    exact Int.natCast_nonneg _

/-- An identifier is read as the variable that is declared under it. -/
theorem plain_of_value_leaf (h : (leaf declared cs).value = some (e, rest)) : Plain declared e := by
  obtain ⟨name, mid, hname, h⟩ := value_bind_eq_some_iff.1 h
  split at h
  · cases h
    exact ⟨.literal true, by simp [Unsigned, literal, constants]⟩
  · next htrue =>
    split at h
    · cases h
      exact ⟨.literal false, by simp [Unsigned, literal, constants]⟩
    · next hfalse =>
      cases hfind : declared.find? name with
      | none =>
        rw [hfind] at h
        cases h
      | some v =>
        rw [hfind] at h
        cases h
        obtain rfl := Registry.name_of_find? hfind
        exact ⟨.var (isIdentifier_of_value_identifier hname) htrue hfalse hfind, nofun⟩

/-- Only plain formulas are read off texts shorter than `n`. -/
def YieldsPlain (declared : Registry) (n : Nat) : Prop :=
  ∀ strength cs e rest, cs.length < n → climbed declared strength cs = some (e, rest) →
  Plain declared e

/-- An operand at the front of a text is plain, if what shorter texts stand for is. -/
theorem Leads.plain {n : Nat} (hn : YieldsPlain declared n) (h : Leads declared cs e rest)
    (hcs : cs.length ≤ n) : Plain declared e := by
  have hbehind : ∀ {c : Char} {cs rest : List Char} {strength : Nat} {e : Expr},
      (c :: cs).length ≤ n →
      climbed declared strength (cs.dropWhile isSpace) = some (e, rest) → Plain declared e := by
    intro c cs rest strength e hcs h
    have hskip : (cs.dropWhile isSpace).length ≤ cs.length := List.length_dropWhile_le ..
    exact hn strength _ e rest (Nat.lt_of_le_of_lt hskip hcs) h
  cases h with
  | not h => exact (hbehind hcs h).negation
  | minus h => exact (hbehind hcs h).minus
  | numeral h => exact plain_of_value_numeral h
  | leaf h => exact plain_of_value_leaf h
  | parens h => exact hbehind hcs h

/-- What is read behind a plain operand is plain, if what shorter texts stand for is. -/
theorem Extends.plain {n : Nat} (hn : YieldsPlain declared n)
    (h : Extends declared strength left cs e rest) (hcs : cs.length ≤ n)
    (hleft : Plain declared left) : Plain declared e := by
  induction h with
  | stop => exact hleft
  | @more left right e op cs mid rest hop hstrength h hmore ih =>
    have hright : Plain declared right := by
      obtain ⟨⟨u, behind⟩, hsymbol, hclimb⟩ := Option.bind_eq_some_iff.1 h
      exact hn _ _ _ _ (Nat.lt_of_lt_of_le (length_of_infixSymbol hsymbol) hcs) hclimb
    exact ih (Nat.le_trans (Nat.le_of_lt (length_of_follow h)) hcs) (.binary hop hleft hright)

/-- All formulas that are read are plain, by induction on the length of the text. -/
theorem yieldsPlain (n : Nat) : YieldsPlain declared n := by
  induction n with
  | zero => nofun
  | succ n ih =>
    intro strength cs e rest hcs h
    have hn : cs.length ≤ n := Nat.le_of_lt_succ hcs
    obtain ⟨left, mid, hleading, hextended⟩ := climbed_eq_some_iff.1 h
    have hleft : Plain declared left := (leading_eq_some_iff.1 hleading).plain ih hn
    exact (extended_eq_some_iff.1 hextended).plain ih
      (Nat.le_trans (length_of_leading hleading) hn) hleft

end

/-- A text stands for plain formulas only. -/
theorem plain_of_parse {s : String} {e : Expr} (h : parse declared s = .ok e) :
    Plain declared e := by
  obtain ⟨rest, hread, -⟩ := exists_of_run_eq_ok h
  exact yieldsPlain _ Precedence.quantifier _ e rest (Nat.lt_succ_self _) hread

/-! ## What is read back -/

/-- A plain formula is read back from its text. -/
theorem Plain.parse_render_eq {e : Expr} (h : Plain declared e) :
    parse declared e.render = .ok e := by
  have hread : Reaches declared Precedence.quantifier (e.chars ++ "".toList) e "".toList := by
    have hclimbs :=
      h.fragment.climbs (minValue_not_mem_of_unsigned h.unsigned) Precedence.quantifier []
      (fits_of_le (Nat.zero_le _)) (.nil _) ends_nil
    rwa [signed_eq_of_unsigned h.unsigned] at hclimbs
  have hgap : IsGap "" := by decide
  have hparse := parse_of_reaches hgap hgap h.fragment.begins hread
  rwa [String.empty_append, String.append_empty] at hparse

/-- **What is read as a formula** is one of booleans and integers over the declared variables, with
no negative constant, and comes back when it is printed and read again. -/
theorem parse_image {s : String} {e : Expr} (h : parse declared s = .ok e) :
    e.Infix declared ∧
    (∀ i, Value.int i ∈ e.constants → 0 ≤ i.toInt ∧ i.toInt ≤ Int64.maxValue.toInt) ∧
    parse declared e.render = .ok e := by
  have hplain := plain_of_parse h
  exact ⟨hplain.fragment, fun i hi => ⟨hplain.unsigned i hi, i.toInt_le⟩, hplain.parse_render_eq⟩

/-- A negation takes in the sum behind it, also where it is an operand of an operator that binds
more strongly. -/
theorem parse_image_signs :
    let x : Variable := ⟨"x", .integer⟩
    let p : Variable := ⟨"p", .bool⟩
    let declared := Registry.ofList [x, p]
    let e := arith .mul (minus (.var x)) (negation (arith .plus (.var x) (integer 7)))
    parse declared "-((x)) *!x\n+007" = .ok e ∧ e.render = "-x * (!x + 7)" ∧
      parse declared e.render = .ok e := by
  intro x p declared e
  have h : parse declared "-((x)) *!x\n+007" = .ok e := by decide +kernel
  exact ⟨h, by decide +kernel, (parse_image h).2.2⟩

end Interpolants.Expr
