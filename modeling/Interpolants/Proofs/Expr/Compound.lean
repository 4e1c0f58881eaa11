import Interpolants.Proofs.Expr.Chain

/-!
# Interpolants — formulas made of formulas in parentheses

Whatever text is read as a formula stands for an operand when it is put between parentheses, and it
is the same operand: what follows the closing parenthesis does not reach into it (`leads_of_parse`).
So texts can be put together from texts without a look at what is in them.
-/

namespace Interpolants.Expr

open Text Text.Reader

variable {declared : Registry}

/-! ## Spaces around formulas -/

/-- A text of spaces and line ends, or of nothing. -/
def IsGap (text : String) : Prop :=
  text.toList.all isSpace = true

instance : DecidablePred IsGap := fun text =>
  inferInstanceAs (Decidable (text.toList.all isSpace = true))

section

variable {cs behind : List Char} {e : Expr}

/-- Spaces at the end of a text hold no operator. -/
theorem stops_of_spaces (h : behind.all isSpace = true) (strength : Nat) :
    Stops strength behind := by
  have hnone : behind.dropWhile isSpace = [] := List.dropWhile_eq_nil_iff.2 (List.all_eq_true.1 h)
  intro op hop hstrength
  obtain ⟨c, symbol, hsymbol, -, -⟩ := exists_symbol_eq op
  rw [value_infixSymbol, hnone, hsymbol, value_word_nil]
  rfl

/-- Spaces continue no name. -/
theorem ends_of_spaces (h : behind.all isSpace = true) : Ends behind := by
  rintro c more rfl
  have hspace : isSpace c = true := List.all_eq_true.1 h c List.mem_cons_self
  rw [Bool.eq_false_iff]
  intro hident
  rw [isSpace_of_isIdentChar hident] at hspace
  cases hspace

/-- A formula with spaces around it is a whole text. -/
theorem parse_of_reaches {before after : String} (hbefore : IsGap before) (hafter : IsGap after)
    (hcs : Begins cs)
    (h : Reaches declared Precedence.quantifier (cs ++ after.toList) e after.toList) :
    parse declared (before ++ String.ofList cs ++ after) = .ok e := by
  have htext : (before ++ String.ofList cs ++ after).toList.dropWhile isSpace
      = cs ++ after.toList := by
    rw [String.toList_append, String.toList_append, String.toList_ofList, List.append_assoc,
      List.dropWhile_append_of_pos (List.all_eq_true.1 hbefore), (hcs.append _).dropWhile_eq]
  have hvalue : (formula declared (cs ++ after.toList)).value = some (e, after.toList) :=
    h.value_climb (stops_of_spaces hafter _) (Nat.le_refl _)
  exact run_eq_ok (by rwa [htext]) (List.dropWhile_eq_nil_iff.2 (List.all_eq_true.1 hafter))

end

/-! ## Operands in parentheses -/

/-- The text of a formula in parentheses, as an operand. -/
def Operand.ofParse {s : String} {e : Expr} (h : parse declared s = .ok e) : Operand declared :=
  ⟨_, e, .parens h⟩

/-- An operator between two operands is the whole chain. -/
theorem grouped_pair (op : BinaryOp) (left right : Expr) :
    Grouped left [(op, right)] (.binary op left right) := by
  have hsplits : SplitsAt [] op [] := ⟨nofun, nofun, nofun, nofun⟩
  exact @Grouped.split op left right left right [] [] hsplits (.operand left) (.operand right)

/-- **Formulas are put together from formulas in parentheses**, with any spaces around them and
around the operators. -/
theorem parse_compound {s t : String} {a b : Expr} (hs : parse declared s = .ok a)
    (ht : parse declared t = .ok b) {before after gap gap' : String} (hbefore : IsGap before)
    (hafter : IsGap after) (hgap : IsGap gap) (hgap' : IsGap gap') :
    parse declared (before ++ ("(" ++ s ++ ")") ++ after) = .ok a ∧
    (∀ op ∈ infixOps,
      parse declared
          (before ++ ("(" ++ s ++ ")" ++ gap ++ String.ofList op.symbol ++ gap' ++ "(" ++ t ++ ")")
            ++ after)
        = .ok (.binary op a b)) ∧
    parse declared (before ++ ("!(" ++ s ++ ")") ++ after) = .ok (negation a) ∧
    parse declared (before ++ ("-(" ++ s ++ ")") ++ after) = .ok (minus a) := by
  have hends := ends_of_spaces hafter
  have hbegins : Begins ('(' :: s.toList ++ [')']) := ⟨'(', _, rfl, by decide⟩
  have hreads : ∀ strength, Reaches declared strength ('(' :: s.toList ++ [')'] ++ after.toList) a
      after.toList :=
    fun strength => reaches_atomic (.parens hs) hends
  have hlonger : after.toList.length ≤ ('(' :: s.toList ++ [')'] ++ after.toList).length := by
    simp
    omega
  -- each text is one that the algorithm reads up to the spaces behind it
  refine ⟨?parens, fun op hop => ?binary, ?not, ?minus⟩
  case parens =>
    have htext : "(" ++ s ++ ")" = String.ofList ('(' :: s.toList ++ [')']) := by
      rw [← String.toList_inj]
      simp
    rw [htext]
    exact parse_of_reaches hbefore hafter hbegins (hreads _)
  case binary =>
    let link : Link declared := ⟨gap.toList, op, gap'.toList, .ofParse ht, hgap, hop, hgap'⟩
    have htext : "(" ++ s ++ ")" ++ gap ++ String.ofList op.symbol ++ gap' ++ "(" ++ t ++ ")"
        = String.ofList (chainChars (.ofParse hs) [link]) := by
      rw [← String.toList_inj]
      simp [chainChars, Operand.ofParse, link]
    rw [htext]
    refine parse_of_reaches hbefore hafter (begins_chainChars _ _) ?_
    exact (grouped_pair op a b).reaches rfl rfl (fun o _ => Nat.zero_le _)
      (fun o _ => stops_of_spaces hafter _) hends
  case not =>
    have htext : "!(" ++ s ++ ")" = String.ofList ('!' :: ('(' :: s.toList ++ [')'])) := by
      rw [← String.toList_inj]
      simp
    rw [htext]
    exact parse_of_reaches hbefore hafter ⟨'!', _, rfl, by decide⟩
      (reaches_not (hreads _) (stops_of_spaces hafter _) (hbegins.append _) hlonger)
  case minus =>
    have htext : "-(" ++ s ++ ")" = String.ofList ('-' :: ('(' :: s.toList ++ [')'])) := by
      rw [← String.toList_inj]
      simp
    rw [htext]
    exact parse_of_reaches hbefore hafter ⟨'-', _, rfl, by decide⟩
      (reaches_minus (hreads _) (hbegins.append _) hlonger)

/-- An arrow whose operands are a formula that ends with a sign's operand and one that starts with a
sign. -/
theorem parse_compound_arrow :
    let x : Variable := ⟨"x", .integer⟩
    let p : Variable := ⟨"p", .bool⟩
    let declared := Registry.ofList [x, p]
    let less := compare .lt (.var x) (minus (.var x))
    let either := logic .or (negation (.var p)) (.var p)
    parse declared "x <-x" = .ok less ∧ parse declared " !p|p\n" = .ok either ∧
      parse declared " (x <-x)-> ( !p|p\n)\t" = .ok (logic .implies less either) := by
  intro x p declared less either
  have hs : parse declared "x <-x" = .ok less := by decide +kernel
  have ht : parse declared " !p|p\n" = .ok either := by decide +kernel
  have hbefore : IsGap " " := by decide
  have hafter : IsGap "\t" := by decide
  have hgap : IsGap "" := by decide
  obtain ⟨-, hpair, -⟩ := parse_compound hs ht hbefore hafter hgap hbefore
  exact ⟨hs, ht, hpair (.logic .implies) (by decide)⟩

end Interpolants.Expr
