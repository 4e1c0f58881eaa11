import Interpolants.Proofs.Expr.Fuel

/-!
# Interpolants — reprinting

A formula that is printed and read again is the same up to the signs of its constants, unless the
least integer is among them. Its magnitude is no signed word, and its digits stand behind a minus
sign in the text of any formula that contains it. No reader gets past them (`keeps_climb`): to be
skipped, they would have to continue an identifier or another numeral, and the sign in front of them
continues neither.
-/

namespace Interpolants.Expr

open Text Text.Reader

variable {declared : Registry}

/-! ## The least integer in a text -/

/-- The digits of the least integer. -/
def leastDigits : List Char :=
  Decimal.digits (Word.magnitude Int64.minValue).toNat

/-- A text that starts with the digits of the least integer. -/
def Facing (cs : List Char) : Prop :=
  ∃ rest, Ends rest ∧ cs = leastDigits ++ rest

/-- A text in which the least integer comes, with its sign. -/
inductive Ahead : List Char → Prop where
  | sign {cs : List Char} (h : Facing cs) : Ahead ('-' :: cs)
  | skip (c : Char) {cs : List Char} (h : Ahead cs) : Ahead (c :: cs)

/-- A text that has the least integer in it, where at most its sign may have been read. -/
def Blocked (cs : List Char) : Prop :=
  Facing cs ∨ Ahead cs

section

variable {c : Char} {cs rest : List Char} {p : Char → Bool}

theorem Facing.exists_cons (h : Facing cs) : ∃ c more, cs = c :: more ∧ c.isDigit = true := by
  obtain ⟨rest, -, rfl⟩ := h
  obtain ⟨c, more, heq, hdigits⟩ := exists_digits_eq (Word.magnitude Int64.minValue).toNat
  exact ⟨c, more ++ rest, by rw [leastDigits, heq, List.cons_append], hdigits c List.mem_cons_self⟩

theorem Ahead.append (before : List Char) (h : Ahead cs) : Ahead (before ++ cs) := by
  induction before with
  | nil => exact h
  | cons c before ih => exact .skip c ih

/-- A sign that is still ahead is not passed with a character that is none. -/
theorem Ahead.tail (h : Ahead (c :: cs)) (hc : c ≠ '-') : Ahead cs := by
  cases h with
  | sign => exact absurd rfl hc
  | skip _ h => exact h

/-- A sign that is still ahead is not passed by a run without signs. -/
theorem Ahead.dropWhile (h : Ahead cs) (hp : p '-' = false) : Ahead (cs.dropWhile p) := by
  induction h with
  | sign h =>
    rw [List.dropWhile_cons_of_neg (by simp [hp])]
    exact .sign h
  | skip c h ih =>
    rw [List.dropWhile_cons]
    split
    · exact ih
    · exact .skip c h

/-- What blocks the way to a sign blocks it behind a character that is no digit. -/
theorem Blocked.tail (h : Blocked (c :: cs)) (hc : c.isDigit = false) : Blocked cs := by
  rcases h with h | h
  · obtain ⟨_, _, ⟨⟩, hdigit⟩ := h.exists_cons
    exact absurd hdigit (by simp [hc])
  · cases h with
    | sign h => exact .inl h
    | skip _ h => exact .inr h

theorem not_blocked_nil : ¬ Blocked [] := by
  rintro (h | h)
  · obtain ⟨_, _, ⟨⟩, -⟩ := h.exists_cons
  · cases h

/-! ## What every reader keeps -/

/-- A reader of one character that takes no sign leaves the sign ahead. -/
theorem keeps_ahead_one (hp : p '-' = false) : Keeps Ahead (one p) := by
  intro cs c rest h hread
  cases cs with
  | nil => cases h
  | cons c' cs =>
    rw [one] at hread
    split at hread
    · next hc =>
      cases hread
      exact h.tail (by rintro rfl; simp [hp] at hc)
    · cases hread

/-- A reader of runs that takes no sign leaves the sign ahead. -/
theorem keeps_ahead_takeWhile (hp : p '-' = false) : Keeps Ahead (takeWhile p) := by
  rintro cs _ _ h ⟨⟩
  exact h.dropWhile hp

theorem keeps_spaces : Keeps Blocked spaces := by
  rintro cs _ _ (h | h) ⟨⟩
  · obtain ⟨c, more, rfl, hdigit⟩ := h.exists_cons
    have hspace : ¬ isSpace c = true := by
      simp [isSpace_of_isIdentChar (isIdentChar_of_isDigit hdigit)]
    rw [List.dropWhile_cons_of_neg hspace]
    exact .inl h
  · exact .inr (h.dropWhile (by decide))

/-- A fixed word without digits leaves the way blocked. -/
theorem keeps_word {expected : List Char} (h : expected.any Char.isDigit = false) :
    Keeps Blocked (word expected) := by
  intro cs u rest hcs hread
  rw [value_word] at hread
  split at hread
  · next hahead =>
    cases hread
    obtain ⟨rest, rfl⟩ := List.isPrefixOf_iff_prefix.1 hahead
    rw [List.drop_left]
    clear hahead
    induction expected with
    | nil => exact hcs
    | cons c expected ih =>
      rw [List.any_cons, Bool.or_eq_false_iff] at h
      exact ih h.2 (hcs.tail h.1)
  · cases hread

/-- The magnitude of the least integer is refused as a numeral. -/
theorem keeps_numeral : Keeps Blocked numeral := by
  rintro cs e rest (⟨behind, hends, rfl⟩ | h) hread
  · rw [leastDigits, value_numeral _ hends] at hread
    cases hread
  · have hkeeps : Keeps Ahead numeral := by
      refine (keeps_ahead_one (by decide)).bind fun first => ?_
      refine (keeps_ahead_takeWhile (by decide)).bind fun more => ?_
      split
      · exact .pure _
      · exact .fail
    exact .inr (hkeeps cs e rest h hread)

/-- An identifier leaves the way blocked. -/
theorem keeps_identifier : Keeps Blocked identifier := by
  rintro cs name rest (h | h) hread
  · obtain ⟨c, more, rfl, hdigit⟩ := h.exists_cons
    have hstart : isIdentStart c = false := by
      rw [Bool.eq_false_iff]
      intro hstart
      rw [isDigit_of_isIdentStart hstart] at hdigit
      cases hdigit
    have hvalue : (identifier (c :: more)).value = none :=
      value_bind_of_none (value_one_of_neg hstart more) _
    rw [hvalue] at hread
    cases hread
  · have hkeeps : Keeps Ahead identifier :=
      (keeps_ahead_one (by decide)).bind fun first =>
        (keeps_ahead_takeWhile (by decide)).bind fun more => .pure _
    exact .inr (hkeeps cs name rest h hread)

end

/-- No reader of formulas gets past the least integer. -/
theorem keeps_climb (fuel : Nat) (strength : Nat) : Keeps Blocked (climb declared fuel strength) :=
  (keeps_climb_of keeps_spaces (fun _ => keeps_word) keeps_numeral keeps_identifier fuel).1 strength

/-! ## Texts with the least integer -/

/-- The least integer comes in the text of an operand that it comes in, with parentheses or
without. -/
theorem ahead_bracket {cs rest : List Char} (h : ∀ rest, Ends rest → Ahead (cs ++ rest))
    (needed : Bool) (hrest : Ends rest) : Ahead (bracket needed cs ++ rest) := by
  cases needed with
  | false => exact h rest hrest
  | true =>
    have htext : bracket true cs ++ rest = '(' :: (cs ++ ')' :: rest) := by
      simp [bracket]
    rw [htext]
    exact .skip '(' (h _ (ends_cons (by decide) rest))

/-- The text of a formula with the least word in it holds a sign that nothing takes. -/
theorem ahead_chars {e : Expr} (h : Value.int Int64.minValue ∈ e.constants) :
    ∀ rest, Ends rest → Ahead (e.chars ++ rest) := by
  induction e with
  | var => cases h
  | const c =>
    obtain rfl := List.mem_singleton.1 h
    intro rest hrest
    have hchars : (const (.int Int64.minValue)).chars = '-' :: leastDigits :=
      (chars_integer Int64.minValue).trans (if_pos (by decide))
    rw [hchars]
    -- here is the sign that nothing takes, with the digits that fit in no word behind it
    exact .sign ⟨rest, hrest, rfl⟩
  | unary op e ih =>
    intro rest hrest
    exact .skip op.symbol (ahead_bracket (ih h) _ hrest)
  | binary op left right ihl ihr =>
    intro rest hrest
    rw [chars, List.append_assoc, List.append_assoc]
    rcases List.mem_append.1 h with h | h
    · exact ahead_bracket (ihl h) _ (ends_cons (by decide) _)
    · exact .append _ (.append _ (.skip ' ' (ahead_bracket (ihr h) _ hrest)))
  | cast e target ih =>
    intro rest hrest
    rw [chars, List.append_assoc]
    exact .append _ (.skip ')' (.skip ' ' (ahead_bracket (ih h) _ hrest)))
  | quantified q bound body ih =>
    intro rest hrest
    rw [chars, List.append_assoc]
    exact .append _ (.skip '.' (.skip ' ' (ih h rest hrest)))

/-! ## Reprinting -/

/-- A printed formula is read back with a minus sign for each negative constant, and not at all if
it contains the least integer. -/
theorem parse_render {e : Expr} (h : e.Infix declared) :
    (Value.int Int64.minValue ∉ e.constants → parse declared e.render = .ok e.signed) ∧
      (Value.int Int64.minValue ∈ e.constants → ∃ p, parse declared e.render = .error p) := by
  unfold parse render
  rw [String.toList_ofList]
  constructor
  · intro hmin
    have hread : Reaches declared Precedence.quantifier (e.chars ++ []) e.signed [] :=
      h.climbs hmin _ [] (fits_of_le (Nat.zero_le _)) (.nil _) ends_nil
    rw [List.append_nil] at hread
    have hvalue : (formula declared (e.chars.dropWhile isSpace)).value = some (e.signed, []) := by
      rw [h.begins.dropWhile_eq]
      exact hread.value_climb (.nil _) (Nat.le_refl _)
    exact run_eq_ok hvalue rfl
  · intro hmin
    have hkeeps : Keeps Blocked (formula declared) := fun cs => keeps_climb _ _ cs
    have hahead := ahead_chars hmin [] ends_nil
    rw [List.append_nil] at hahead
    -- the sign is still ahead where reading starts, and nothing is where it ends
    exact exists_run_error hkeeps keeps_spaces (.inr hahead) not_blocked_nil

/-- Signs of constants come back as operators, and the text with the least word does not come
back. -/
theorem parse_render_signs :
    let x : Variable := ⟨"x", .integer⟩
    let p : Variable := ⟨"p", .bool⟩
    let declared := Registry.ofList [x, p]
    let difference := arith .minus (.var x) (arith .minus (integer (-3)) (.var x))
    let e := logic .implies (negation (compare .lt difference (minus (integer (-4))))) (.var p)
    let least := arith .mul (.var x) (integer Int64.minValue)
    e.render = "!(x - (-3 - x) < -(-4)) -> p" ∧ parse declared e.render = .ok e.signed ∧
      e.signed = logic .implies (negation (compare .lt
        (arith .minus (.var x) (arith .minus (minus (integer 3)) (.var x)))
        (minus (minus (integer 4))))) (.var p) ∧
      least.render = "x * -9223372036854775808" ∧
      ∃ pos, parse declared least.render = .error pos := by
  intro x p declared difference e least
  have hx : Infix declared (.var x) :=
    .var (by decide) (by decide) (by decide) (by decide)
  have hp : Infix declared (.var p) :=
    .var (by decide) (by decide) (by decide) (by decide)
  have hdifference : Infix declared difference :=
    .binary (by nofun) hx (.binary (by nofun) (.integer (-3)) hx)
  have he : Infix declared e :=
    .binary (by nofun) (.negation (.binary (by nofun) hdifference (.minus (.integer (-4))))) hp
  have hleast : Infix declared least := .binary (by nofun) hx (.integer Int64.minValue)
  exact ⟨by decide, (parse_render he).1 (by decide), by decide, by decide,
    (parse_render hleast).2 (by decide)⟩

end Interpolants.Expr
