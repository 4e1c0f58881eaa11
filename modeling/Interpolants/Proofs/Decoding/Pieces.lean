import Interpolants.Proofs.Decoding.Lexical
import Interpolants.Proofs.Decoding.Reading
import Interpolants.Proofs.Decoding.Rounds
import Interpolants.Proofs.Decoding.Token

/-!
# Interpolants — terms that are read in one piece

Terms are read token by token, and the search for a closing parenthesis counts characters. Where
tokens and pipes go together (`Piecewise`) the two come to the same: what is read as a term closes
all the parentheses it opens (`crosses_of_term`), and an application is read up to the parenthesis
that closes it (`closes_of_application`). The one thing in the way is a token that is torn, a bare
one with a pipe in it, and it must not be the name of anything.
-/

namespace Interpolants

open Text

/-! ## Pieces that are read -/

/-- What was read between two places closes all the parentheses it opens, and leaves a text of a
kind. -/
def Crosses (S : List Char → Prop) (c c' : Cursor) : Prop :=
  S c'.rest ∧ ∃ piece, Balanced piece ∧ c.rest = piece ++ c'.rest

/-- What was read between two places ends with a parenthesis that closes one before it, and leaves a
text of a kind. -/
def Closes (S : List Char → Prop) (c c' : Cursor) : Prop :=
  S c'.rest ∧ ∃ piece, Balanced piece ∧ c.rest = piece ++ ')' :: c'.rest

/-- A kind of texts in which a symbol between pipes and a bare token are each read in one piece, and
leave such a text, unless the token is torn. -/
structure Piecewise (S torn : List Char → Prop) : Prop where
  tail : ∀ {c : Char} {cs : List Char}, S (c :: cs) → isDelimiter c = true → S cs
  symbol : ∀ {quoted : List Char}, S ('|' :: quoted) → '|' ∈ quoted →
    ∃ content rest, quoted = content ++ '|' :: rest ∧ '|' ∉ content ∧ S rest
  bare : ∀ {cs : List Char}, S cs → cs.head? ≠ some '|' →
  ¬ torn (cs.takeWhile fun c => !isDelimiter c) →
    '|' ∉ (cs.takeWhile fun c => !isDelimiter c) ∧ S (cs.dropWhile fun c => !isDelimiter c)
  pipe : ∀ {token : List Char}, torn token → '|' ∈ token

section

variable {S torn : List Char → Prop} {c c₁ c' : Cursor} {token : List Char}

/-- Pieces that are read one after the other are a piece. -/
theorem Crosses.trans (h : Crosses S c c₁) (h' : Crosses S c₁ c') : Crosses S c c' := by
  obtain ⟨-, piece, hpiece, hrest⟩ := h
  obtain ⟨hkind, piece', hpiece', hrest'⟩ := h'
  exact ⟨hkind, piece ++ piece', hpiece.append hpiece', by rw [hrest, hrest', List.append_assoc]⟩

/-- What closes behind a piece closes behind whatever was read before it as well. -/
theorem Crosses.closes (h : Crosses S c c₁) (h' : Closes S c₁ c') : Closes S c c' := by
  obtain ⟨-, piece, hpiece, hrest⟩ := h
  obtain ⟨hkind, piece', hpiece', hrest'⟩ := h'
  exact ⟨hkind, piece ++ piece', hpiece.append hpiece', by rw [hrest, hrest', List.append_assoc]⟩

/-- Blanks open and close nothing. -/
theorem balanced_blanks {blanks : List Char} (h : ∀ ch ∈ blanks, isBlank ch = true) :
    Balanced blanks := by
  refine Balanced.of_plain fun ch hch => ?_
  refine ⟨?_, ?_, ?_⟩ <;> rintro rfl <;> exact absurd (h _ hch) (by decide)

namespace Piecewise

variable (hS : Piecewise S torn)

include hS

/-- Dropping blanks leaves a text of the kind. -/
theorem trimStart {cs : List Char} (h : S cs) : S (trimStart cs) := by
  induction cs with
  | nil => exact h
  | cons c cs ih =>
    rw [Text.trimStart, List.dropWhile_cons]
    split
    · next hc => exact ih (hS.tail h (by rw [isDelimiter, hc]; rfl))
    · exact h

/-- Blanks are a piece. -/
theorem crosses_skipBlanks (h : S c.rest) : Crosses S c c.skipBlanks := by
  refine ⟨hS.trimStart h, c.rest.takeWhile isBlank, balanced_blanks fun ch hch => ?_, ?_⟩
  · exact List.mem_takeWhile_imp hch
  · exact List.takeWhile_append_dropWhile.symm

/-- A closing parenthesis closes. -/
theorem closes_of_eat? (h : S c.rest) (heat : c.eat? ')' = some c') : Closes S c c' := by
  have hrest := Cursor.rest_of_eat? heat
  refine (hS.crosses_skipBlanks h).closes ⟨?_, [], .nil, hrest⟩
  have hkind := hS.trimStart h
  rw [hrest] at hkind
  exact hS.tail hkind isDelimiter_close

/-- **A token is read in one piece**, unless it is torn. -/
theorem crosses_of_token (h : S c.rest) (htoken : c.token = .ok (token, c'))
    (htorn : ¬ torn token) :
    Crosses S c c' := by
  refine (hS.crosses_skipBlanks h).trans ?_
  have hkind : S c.skipBlanks.rest := hS.trimStart h
  cases Cursor.tokenRead_of_token htoken with
  | @quoted content after hpipe hrest =>
    rw [Cursor.skipBlanks_rest, hrest] at hkind
    -- the kind ends the symbol at a pipe too, and it is the same pipe
    obtain ⟨content', rest, heq, hpipe', hkind⟩ := hS.symbol hkind (by simp)
    obtain ⟨-, hdrop⟩ := span_of_not_mem hpipe after
    rw [heq, (span_of_not_mem hpipe' rest).2] at hdrop
    cases hdrop
    refine ⟨hkind, '|' :: content ++ ['|'], .quoted hpipe, ?_⟩
    rw [Cursor.skipBlanks_rest, hrest, Cursor.goTo_rest]
    simp
  | @bare _ after _ hhead hdelim hafter hrest =>
    obtain ⟨htake, hdrop⟩ := takeWhile_bare hdelim hafter
    rw [Cursor.skipBlanks_rest, hrest] at hkind
    have hbare : (token ++ after).head? ≠ some '|' := by
      obtain ⟨ch, more, rfl⟩ := List.exists_cons_of_ne_nil (Cursor.ne_nil_of_token htoken)
      exact hhead
    obtain ⟨hpipe, hkind⟩ := hS.bare hkind hbare (by rwa [htake])
    rw [htake] at hpipe
    rw [hdrop] at hkind
    refine ⟨hkind, token, .of_plain fun ch hch => ?_, by rw [Cursor.skipBlanks_rest, hrest]; rfl⟩
    obtain ⟨-, hopen, hclose⟩ := ne_of_not_isDelimiter (hdelim ch hch)
    exact ⟨hopen, hclose, fun heq => hpipe (heq ▸ hch)⟩

/-! ## Terms -/

/-- No operator is written with a pipe. -/
theorem not_applied (h : torn token) (es : List Expr) (e : Expr) :
    applyNamed (String.ofList token) es ≠ .ok e := by
  intro happly
  have hname : Operator.ofName? (String.ofList token) = none := by
    refine ofName?_of_mem (c := '|') ?_ (· == '|') (by decide) (by decide)
    rw [String.toList_ofList]
    exact hS.pipe h
  have hnone := applyNamed_of_ofName? hname es
  rw [happly] at hnone
  cases hnone

/-- So does what is left of the least word behind its minus sign. -/
theorem closes_of_leastWord? (h : S c.rest) (hleast : c.leastWord? = some c') : Closes S c c' := by
  obtain ⟨token, behind, htoken, hnumeral, heat⟩ := exists_numeral_of_leastWord? hleast
  have htorn : ¬ torn token := fun htorn =>
    absurd (List.all_eq_true.1 hnumeral '|' (hS.pipe htorn)) (by decide)
  have hcrosses := hS.crosses_of_token h htoken htorn
  exact hcrosses.closes (hS.closes_of_eat? hcrosses.1 heat)

/-- Operands that are pieces are read up to a closing parenthesis. -/
theorem closes_of_operands {read : Cursor → Except DecodeError (Expr × Cursor)} {es : List Expr}
    (hread : ∀ {c e c'}, S c.rest → read c = .ok (e, c') → Crosses S c c') (h : S c.rest)
    (hoperands : OperandsRead read c es c') : Closes S c c' := by
  induction hoperands with
  | close hclose => exact hS.closes_of_eat? h (Cursor.eat?_of_head hclose)
  | more hfirst _ ih =>
    have hblanks := hS.crosses_skipBlanks h
    have hcrosses := hread hblanks.1 hfirst
    exact (hblanks.trans hcrosses).closes (ih hcrosses.1)

variable {names : Names} {e : Expr}

/-- An application is read up to the parenthesis that closes it. -/
theorem closes_of_application {depth : Nat} {rest : List Char}
    (hread : ∀ {c e c'}, S c.rest → term names depth c = .ok (e, c') → Crosses S c c')
    (hopen : Text.trimStart c.rest = '(' :: rest) (h : S rest)
    (hterm : TermRead names depth c e c') :
    Closes S (c.goTo rest) c' := by
  have hinside : S (c.goTo rest).rest := h
  cases hterm with
  | leaf hhead => exact absurd (by rw [hopen]; rfl) hhead
  | leastWord hopen' hminus hleast =>
    cases hopen.symm.trans hopen'
    have hcrosses := hS.crosses_of_token hinside hminus fun htorn =>
      absurd (hS.pipe htorn) (by decide)
    exact hcrosses.closes (hS.closes_of_leastWord? hcrosses.1 hleast)
  | application hopen' hop _ hoperands happly =>
    cases hopen.symm.trans hopen'
    have hcrosses := hS.crosses_of_token hinside hop fun htorn => hS.not_applied htorn _ _ happly
    exact hcrosses.closes (hS.closes_of_operands hread hcrosses.1 hoperands)

/-- **A term is read in one piece**, if no torn token is a name. -/
theorem crosses_of_term (hnames : ∀ token e, torn token → ¬ LeafRead names token e) {depth : Nat}
    (h : S c.rest) (hterm : term names depth c = .ok (e, c')) : Crosses S c c' := by
  induction depth generalizing c e c' with
  | zero => cases hterm
  | succ depth ih =>
    have hread := termRead_of_term hterm
    by_cases hhead : (Text.trimStart c.rest).head? = some '('
    · obtain ⟨rest, hopen⟩ := List.head?_eq_some_iff.1 hhead
      -- the blanks are crossed first, then the list with both of its parentheses
      have hblanks := hS.crosses_skipBlanks h
      have hkind := hblanks.1
      rw [Cursor.skipBlanks_rest, hopen] at hkind
      obtain ⟨hrest, piece, hpiece, hinside⟩ :=
        hS.closes_of_application ih hopen (hS.tail hkind isDelimiter_open) hread
      refine hblanks.trans ⟨hrest, '(' :: piece ++ [')'], hpiece.parens, ?_⟩
      rw [Cursor.goTo_rest] at hinside
      rw [Cursor.skipBlanks_rest, hopen, hinside]
      simp
    · cases hread with
      | leaf _ htoken hleaf =>
        exact hS.crosses_of_token h htoken fun htorn => hnames _ _ htorn hleaf
      | leastWord hopen | application hopen => exact absurd (by rw [hopen]; rfl) hhead

/-- **An application is what the search for its closing parenthesis cuts off.** -/
theorem enclosed_of_term (hnames : ∀ token e, torn token → ¬ LeafRead names token e) {depth : Nat}
    {rest : List Char} (h : S c.rest) (hopen : Text.trimStart c.rest = '(' :: rest)
    (hterm : term names depth c = .ok (e, c')) :
    ∃ piece, enclosed ('(' :: rest) = some ('(' :: piece ++ [')'], c'.rest) ∧ Balanced piece := by
  cases depth with
  | zero => cases hterm
  | succ depth =>
    have hkind := hS.trimStart h
    rw [hopen] at hkind
    obtain ⟨-, piece, hpiece, hinside⟩ :=
      hS.closes_of_application (hS.crosses_of_term hnames) hopen (hS.tail hkind isDelimiter_open)
        (termRead_of_term hterm)
    rw [Cursor.goTo_rest] at hinside
    refine ⟨piece, ?_, hpiece⟩
    have hcut := enclosed_parens hpiece c'.rest
    rwa [List.append_assoc, List.singleton_append, List.cons_append, ← hinside] at hcut

end Piecewise

end

end Interpolants
