import Interpolants.Decoding.Decode
import Interpolants.Proofs.Decoding.Rounds
import Interpolants.Proofs.Decoding.Token

/-!
# Interpolants — steps of reading

What one step of the second pass of decoding does at a cursor, told by what stands there behind the
blanks: a token, an opening or a closing parenthesis, or nothing. Nothing is assumed of the text
further on.

The other way round, a term that was read has been read in one of three ways (`TermRead`), and each
of them says which steps were taken. What is proved of everything that is read goes by these.
-/

namespace Interpolants

open Text

theorem trimStart_close (rest : List Char) : trimStart (')' :: rest) = ')' :: rest :=
  trimStart_of_not_isBlank (by decide) rest

section

variable {c : Cursor} {rest : List Char}

/-- No token starts at a closing parenthesis. -/
theorem token_close (hc : trimStart c.rest = ')' :: rest) :
    c.token = .error (c.skipBlanks.flaw .expectedSymbol) := by
  refine Cursor.token_of_delimiter fun next hnext => ?_
  rw [hc] at hnext
  cases hnext
  exact isDelimiter_close

/-- No term starts there either. -/
theorem span_close (hc : trimStart c.rest = ')' :: rest) :
    c.span = .error (c.skipBlanks.flaw .expectedSymbol) := by
  rw [Cursor.span_of_ne (by rw [hc]; simp)]
  exact token_close hc

/-- Behind the last entry of a let block stands the body. -/
theorem bindingsAt_close {limit : Nat} {body : List Char}
    (hc : trimStart c.rest = ')' :: (body ++ [')'])) :
    LetBlock.bindingsAt (limit + 1) c = ⟨[], .ok body⟩ := by
  rw [LetBlock.bindingsAt_of_eat? (Cursor.eat?_of_head hc), LetBlock.bodyAt, Cursor.goTo_rest,
    if_pos (by simp), List.dropLast_concat]

/-- One more operand is read where no parenthesis closes. -/
theorem operands_of_head {read : Cursor → Except DecodeError (Expr × Cursor)} {limit : Nat}
    {ch : Char} {cs : List Char} (hc : trimStart c.rest = ch :: cs) (hclose : ch ≠ ')') :
    operands read (limit + 1) c =
      read c.skipBlanks >>= fun first =>
        operands read limit first.2 >>= fun others => pure (first.1 :: others.1, others.2) := by
  rw [operands, Cursor.skipBlanks_rest, hc]
  split
  · next h => cases h
  · next h =>
    cases h
    exact absurd rfl hclose
  · rfl

variable {names : Names} {depth : Nat}

/-- Where a token stands a leaf is read, since no token starts with a parenthesis. -/
theorem term_of_token {token : List Char} (htoken : TokenForm token)
    (hc : trimStart c.rest = token ++ rest) :
    term names (depth + 1) c =
      c.token >>= fun token => names.leaf token.1 >>= fun e => pure (e, token.2) := by
  obtain ⟨ch, cs, rfl, hdelim⟩ := htoken.exists_cons
  obtain ⟨-, hopen, hclose⟩ := ne_of_not_isDelimiter hdelim
  rw [term, Cursor.skipBlanks_rest, hc, List.cons_append]
  split
  · next h => cases h
  · next h =>
    cases h
    exact absurd rfl hclose
  · next h =>
    cases h
    exact absurd rfl hopen
  · rfl

/-- Behind an opening parenthesis the operator is read, and then the operands. -/
theorem term_open {more : List Char} (hc : trimStart c.rest = '(' :: more) :
    term names (depth + 1) c = (do
      let (op, c) ← (c.goTo more).token
      match if op = ['-'] then c.leastWord? else none with
      | some c => return (.integer Int64.minValue, c)
      | none => do
        let (es, c) ← operands (term names depth) (c.rest.length + 1) c
        return (← applyNamed (String.ofList op) es, c)) := by
  rw [term, Cursor.skipBlanks_rest, hc]
  rfl

/-- A list without an operator in front is no term. -/
theorem term_unnamed {more : List Char} (hc : trimStart c.rest = '(' :: more) {e : DecodeError}
    (hmore : (c.goTo more).token = .error e) : (term names (depth + 1) c).toOption = none := by
  rw [term_open hc, hmore]
  rfl

end

/-! ## What has been read -/

/-- How a leaf is read. -/
inductive LeafRead (names : Names) (token : List Char) : Expr → Prop where
  | yes (htoken : token = "true".toList) : LeafRead names token (.literal true)
  | no (htoken : token = "false".toList) : LeafRead names token (.literal false)
  | numeral {i : Int64} (hnumeral : Decimal.isNumeral token = true)
      (hword : Word.signed? (Decimal.value token) = some i) : LeafRead names token (.integer i)
  | name {e : Expr} (hyes : token ≠ "true".toList) (hno : token ≠ "false".toList)
      (hnumeral : Decimal.isNumeral token = false) (hfind : names.find? (unquote token) = some e) :
      LeafRead names token e

/-- How operands are read: one by one, up to the parenthesis that closes the application. -/
inductive OperandsRead (read : Cursor → Except DecodeError (Expr × Cursor)) :
    Cursor → List Expr → Cursor → Prop where
  | close {c : Cursor} {rest : List Char} (hclose : trimStart c.rest = ')' :: rest) :
      OperandsRead read c [] (c.goTo rest)
  | more {c behind c' : Cursor} {e : Expr} {es : List Expr}
      (hfirst : read c.skipBlanks = .ok (e, behind)) (hmore : OperandsRead read behind es c') :
      OperandsRead read c (e :: es) c'

/-- How a term is read: as a leaf, as the least signed word, or as an application. -/
inductive TermRead (names : Names) (depth : Nat) (c : Cursor) : Expr → Cursor → Prop where
  | leaf {token : List Char} {e : Expr} {c' : Cursor} (hhead : (trimStart c.rest).head? ≠ some '(')
      (htoken : c.token = .ok (token, c')) (hleaf : LeafRead names token e) :
      TermRead names depth c e c'
  | leastWord {more : List Char} {behind c' : Cursor} (hopen : trimStart c.rest = '(' :: more)
      (hminus : (c.goTo more).token = .ok (['-'], behind)) (hleast : behind.leastWord? = some c') :
      TermRead names depth c (.integer Int64.minValue) c'
  | application {more op : List Char} {behind c' : Cursor} {es : List Expr} {e : Expr}
      (hopen : trimStart c.rest = '(' :: more) (hop : (c.goTo more).token = .ok (op, behind))
      (hleast : op = ['-'] → behind.leastWord? = none)
      (hoperands : OperandsRead (term names depth) behind es c')
      (happly : applyNamed (String.ofList op) es = .ok e) : TermRead names depth c e c'

section

variable {names : Names} {depth : Nat} {c c' : Cursor} {e : Expr}

/-- A token that is a leaf is read in one of the listed ways. -/
theorem leafRead_of_leaf {token : List Char} (h : names.leaf token = .ok e) :
    LeafRead names token e := by
  unfold Names.leaf at h
  split at h
  · next htoken =>
    cases h
    exact .yes htoken
  · next hyes =>
    split at h
    · next htoken =>
      cases h
      exact .no htoken
    · next hno =>
      split at h
      · next hnumeral =>
        split at h
        · next hword =>
          cases h
          exact .numeral hnumeral hword
        · cases h
      · next hnumeral =>
        split at h
        · next hfind =>
          cases h
          exact .name hyes hno (by simpa using hnumeral) hfind
        · cases h

/-- Operands that are read are read one after the other up to a closing parenthesis. -/
theorem operandsRead_of_operands {read : Cursor → Except DecodeError (Expr × Cursor)} {limit : Nat}
    {es : List Expr} (h : operands read limit c = .ok (es, c')) : OperandsRead read c es c' := by
  induction limit generalizing c es with
  | zero => cases h
  | succ limit ih =>
    rw [operands] at h
    split at h
    · cases h
    · next hclose =>
      cases h
      exact .close hclose
    · obtain ⟨⟨e, behind⟩, hfirst, h⟩ := except_bind_eq_ok_iff.1 h
      obtain ⟨⟨es', c₂⟩, hmore, h⟩ := except_bind_eq_ok_iff.1 h
      cases h
      exact .more hfirst (ih hmore)

/-- The magnitude of the least signed word is a numeral in front of a closing parenthesis. -/
theorem exists_numeral_of_leastWord? (h : c.leastWord? = some c') :
    ∃ token behind, c.token = .ok (token, behind) ∧ Decimal.isNumeral token = true ∧
      behind.eat? ')' = some c' := by
  unfold Cursor.leastWord? at h
  split at h
  · next token behind htoken =>
    obtain ⟨hmagnitude, heat⟩ := Option.ite_none_right_eq_some.1 h
    rw [Bool.and_eq_true] at hmagnitude
    exact ⟨token, behind, htoken, hmagnitude.1, heat⟩
  · cases h

/-- **A term is read in one of three ways.** -/
theorem termRead_of_term (h : term names (depth + 1) c = .ok (e, c')) :
    TermRead names depth c e c' := by
  rw [term] at h
  split at h
  · cases h
  · cases h
  · next more hopen =>
    obtain ⟨⟨op, behind⟩, hop, h⟩ := except_bind_eq_ok_iff.1 h
    dsimp only at h
    split at h
    · next hleast =>
      cases h
      obtain ⟨rfl, hleast⟩ := Option.ite_none_right_eq_some.1 hleast
      exact .leastWord hopen hop hleast
    · next hleast =>
      obtain ⟨⟨es, c₂⟩, hoperands, h⟩ := except_bind_eq_ok_iff.1 h
      obtain ⟨applied, happly, h⟩ := except_bind_eq_ok_iff.1 h
      cases h
      refine .application hopen hop (fun hminus => ?_) (operandsRead_of_operands hoperands) happly
      rwa [if_pos hminus] at hleast
  · next hhead heq =>
    obtain ⟨⟨token, behind⟩, htoken, h⟩ := except_bind_eq_ok_iff.1 h
    obtain ⟨leaf, hleaf, h⟩ := except_bind_eq_ok_iff.1 h
    cases h
    refine .leaf (fun hopen => ?_) htoken (leafRead_of_leaf hleaf)
    rw [← Cursor.skipBlanks_rest, heq] at hopen
    exact hhead (Option.some.inj hopen)

/-- Only blanks stand behind a term that is a whole text. -/
theorem exists_term_of_wholeTerm {text : List Char} (h : wholeTerm names text = .ok e) :
    ∃ c, term names (text.length + 1) (Cursor.ofText text) = .ok (e, c) ∧
      ∀ ch ∈ c.rest, isBlank ch = true := by
  obtain ⟨⟨e', c⟩, hterm, h⟩ := except_bind_eq_ok_iff.1 h
  dsimp only at h
  split at h
  · next hempty =>
    cases h
    refine ⟨c, hterm, ?_⟩
    rwa [Cursor.skipBlanks_rest, List.isEmpty_iff, trimStart, List.dropWhile_eq_nil_iff] at hempty
  · cases h

end

/-- Blanks alone are no term. -/
theorem wholeTerm_blank (names : Names) {blanks : List Char}
    (hblanks : ∀ c ∈ blanks, isBlank c = true) : (wholeTerm names blanks).toOption = none := by
  have htrim : trimStart blanks = [] := List.dropWhile_eq_nil_iff.2 hblanks
  rw [wholeTerm, term]
  simp only [Cursor.skipBlanks_rest, Cursor.ofText, htrim]
  rfl

end Interpolants
