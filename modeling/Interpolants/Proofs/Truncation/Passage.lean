import Interpolants.Proofs.Decoding.Pieces
import Interpolants.Proofs.Truncation.Scanned

/-!
# Interpolants — scanned terms are read in one piece

The second pass reads tokens, and the search for a closing parenthesis counts characters. In a
scanned text the two come to the same (`piecewise_scanned`), so a text is read up to the parenthesis
that closes its first one. A token that is `Torn`, in which they would differ, is not the name of
anything.
-/

namespace Interpolants

open Text

/-! ## Tokens -/

/-- A bare token that a placeholder makes together with a quoted symbol. -/
structure Torn (token : List Char) : Prop where
  bare : token.head? ≠ some '|'
  pipe : '|' ∈ token
  key : "#let".toList <:+: token

/-- **A token of a scanned text is read in one piece**, unless it is torn. -/
theorem piecewise_scanned : Piecewise (Scanned true) Torn where
  tail h hc := h.tail hc
  symbol h hclosed := h.exists_symbol hclosed
  bare := by
    intro cs h hhead htorn
    have hpipe : '|' ∉ cs.takeWhile fun c => !isDelimiter c := by
      intro hmem
      refine htorn ⟨fun htoken => hhead ?_, hmem, (h.strict hhead).infix_of_takeWhile hmem⟩
      obtain ⟨more, hmore⟩ := List.head?_eq_some_iff.1 htoken
      rw [← List.takeWhile_append_dropWhile (p := fun c => !isDelimiter c) (l := cs), hmore]
      rfl
    exact ⟨hpipe, h.of_takeWhile hpipe⟩
  pipe h := h.pipe

/-! ## The second pass -/

/-- A torn token is not the name of anything. -/
def Names.Refuses (names : Names) : Prop :=
  ∀ token e, Torn token → ¬ LeafRead names token e

/-- The parenthesis that stands open in front of the text is closed in it, with blanks behind. -/
def Shut (cs : List Char) : Prop :=
  ∃ inside rest, closing 1 false cs = some (inside, rest) ∧ ∀ c ∈ rest, isBlank c = true

/-- **The second pass reads a text up to the parenthesis that closes its first one.** -/
theorem shut_of_wholeTerm {names : Names} {text cs : List Char} {e : Expr} (hnames : names.Refuses)
    (hopen : trimStart text = '(' :: cs) (hscanned : Scanned true cs)
    (h : wholeTerm names text = .ok e) : Shut cs := by
  obtain ⟨c, hterm, hblank⟩ := exists_term_of_wholeTerm h
  obtain ⟨-, piece, hpiece, hrest⟩ := piecewise_scanned.closes_of_application
    (c := Cursor.ofText text) (piecewise_scanned.crosses_of_term hnames) hopen hscanned
    (termRead_of_term hterm)
  rw [Cursor.goTo_rest] at hrest
  refine ⟨piece ++ [')'], c.rest, ?_, hblank⟩
  rw [hrest, hpiece 1 (Nat.le_refl 1), closing_last (Nat.le_refl 1)]
  rfl

end Interpolants
