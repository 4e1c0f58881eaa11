import Interpolants.Proofs.Decoding.Token
import Interpolants.Proofs.Text.Character
import Interpolants.Sexp.Printer

/-!
# Interpolants — the written form of terms

The text that a term is printed to. Its symbols are `Legible`: each is written as one token, bare or
between pipes, that is read back as the symbol. The elements of a list stand behind a space each,
but for the first.
-/

namespace Interpolants

open Text

/-! ## Symbols -/

/-- The three ways to print a symbol. -/
theorem Sexp.chars_symbol_cases (s : String) :
    ((∃ c ∈ s.toList, Atom.isSpecial c = true) ∧
        (Atom.symbol s).chars = '|' :: (s.toList ++ ['|'])) ∨
      ((∀ c ∈ s.toList, Atom.isSpecial c = false) ∧ '|' ∈ s.toList ∧
        (Atom.symbol s).chars = '"' :: (s.toList ++ ['"'])) ∨
      ((∀ c ∈ s.toList, Atom.isSpecial c = false) ∧ '|' ∉ s.toList ∧
        (Atom.symbol s).chars = s.toList) := by
  by_cases hspecial : s.toList.any Atom.isSpecial = true
  · exact Or.inl ⟨List.any_eq_true.1 hspecial, if_pos hspecial⟩
  · have hplain : ∀ c ∈ s.toList, Atom.isSpecial c = false := by simpa using hspecial
    have hchars : (Atom.symbol s).chars
        = if s.toList.contains '|' then '"' :: (s.toList ++ ['"']) else s.toList := if_neg hspecial
    by_cases hpipe : '|' ∈ s.toList
    · exact Or.inr (Or.inl ⟨hplain, hpipe, hchars.trans (if_pos (by simpa using hpipe))⟩)
    · exact Or.inr (Or.inr ⟨hplain, hpipe, hchars.trans (if_neg (by simpa using hpipe))⟩)

/-! ## Legible symbols -/

/-- A symbol whose written form is one token that stands for the symbol: it cannot be taken for a
numeral, is quoted if it holds a blank, and does not look like a let block. -/
structure Legible (name : String) : Prop where
  nonempty : name ≠ ""
  notNumeral : Decimal.isNumeral name.toList = false
  unpiped : '|' ∉ name.toList
  quoted : (∃ c ∈ name.toList, isBlank c = true) → ∃ c ∈ name.toList, Atom.isSpecial c = true
  unmarked : ¬ Marked name.toList

instance : DecidablePred Legible := fun name =>
  decidable_of_iff (name ≠ "" ∧ Decimal.isNumeral name.toList = false ∧ '|' ∉ name.toList ∧
      (name.toList.any isBlank = true → name.toList.any Atom.isSpecial = true) ∧
      ¬ Marked name.toList) <| by
    rw [List.any_eq_true, List.any_eq_true]
    exact ⟨fun ⟨h₁, h₂, h₃, h₄, h₅⟩ => ⟨h₁, h₂, h₃, h₄, h₅⟩,
      fun ⟨h₁, h₂, h₃, h₄, h₅⟩ => ⟨h₁, h₂, h₃, h₄, h₅⟩⟩

/-- A name with a character that ends tokens, blanks aside, is written in quotes. -/
theorem isSpecial_of_isDelimiter {c : Char} (h : isDelimiter c = true)
    (hblank : isBlank c = false) :
    Atom.isSpecial c = true := by
  simp only [isDelimiter, hblank, Bool.false_or, Bool.or_eq_true, beq_iff_eq] at h
  rcases h with rfl | rfl <;> decide

namespace Legible

variable {name : String}

/-- A legible symbol is written bare or between pipes. -/
theorem chars_eq (h : Legible name) :
    ((∃ c ∈ name.toList, Atom.isSpecial c = true) ∧
        (Atom.symbol name).chars = '|' :: (name.toList ++ ['|'])) ∨
      ((∀ c ∈ name.toList, Atom.isSpecial c = false) ∧
        (Atom.symbol name).chars = name.toList) := by
  rcases Sexp.chars_symbol_cases name with hquoted | ⟨-, hpipe, -⟩ | ⟨hplain, -, hchars⟩
  · exact .inl hquoted
  · exact absurd hpipe h.unpiped
  · exact .inr ⟨hplain, hchars⟩

theorem toList_ne_nil (h : Legible name) : name.toList ≠ [] := by
  intro hnil
  exact h.nonempty (String.toList_eq_nil_iff.1 hnil)

/-- **A legible name is written as one token.** -/
theorem tokenForm (h : Legible name) : TokenForm (Atom.symbol name).chars := by
  rcases h.chars_eq with ⟨-, hchars⟩ | ⟨hplain, hchars⟩
  · rw [hchars]
    exact .quoted h.unpiped h.unmarked
  · rw [hchars]
    refine .bare h.toList_ne_nil h.unpiped fun c hc => ?_
    rw [Bool.eq_false_iff]
    intro hdelim
    -- a blank calls for a special character, and any other delimiter is one
    by_cases hblank : isBlank c = true
    · obtain ⟨c', hc', hspecial⟩ := h.quoted ⟨c, hc, hblank⟩
      rw [hplain c' hc'] at hspecial
      cases hspecial
    · have hspecial := isSpecial_of_isDelimiter hdelim (by simpa using hblank)
      rw [hplain c hc] at hspecial
      cases hspecial

/-- Without its quotes this token is the name. -/
theorem unquote_chars (h : Legible name) : unquote (Atom.symbol name).chars = name := by
  rcases h.chars_eq with ⟨-, hchars⟩ | ⟨-, hchars⟩
  · rw [hchars, unquote_quoted, String.ofList_toList]
  · have hbare : name.toList.head? ≠ some '|' :=
      fun hhead => h.unpiped (List.mem_of_mem_head? hhead)
    rw [hchars, unquote_bare hbare, String.ofList_toList]

/-- What is written like a word without special characters is that word. -/
theorem chars_eq_iff (h : Legible name) {word : String}
    (hword : ∀ c ∈ word.toList, Atom.isSpecial c = false) (hpipe : '|' ∉ word.toList) :
    (Atom.symbol name).chars = word.toList ↔ name = word := by
  -- written between pipes it is not the word, and the word is not written so
  rcases h.chars_eq with ⟨⟨c, hc, hspecial⟩, hchars⟩ | ⟨-, hchars⟩
  · rw [hchars]
    constructor
    · intro heq
      exact absurd (heq ▸ List.mem_cons_self) hpipe
    · rintro rfl
      rw [hword c hc] at hspecial
      cases hspecial
  · rw [hchars, String.toList_inj]

end Legible

/-! ## Numerals -/

theorem isDelimiter_of_isDigit {c : Char} (h : c.isDigit = true) : isDelimiter c = false := by
  have hopen : c ≠ '(' := by
    rintro rfl
    exact absurd h (by decide)
  have hclose : c ≠ ')' := by
    rintro rfl
    exact absurd h (by decide)
  simp [isDelimiter, isBlank_of_isDigit h, hopen, hclose]

/-- A number is written as one token. -/
theorem tokenForm_digits (n : Nat) : TokenForm (Decimal.digits n) := by
  have hdigit := Decimal.isNumeral_digits n
  rw [Decimal.isNumeral, List.all_eq_true] at hdigit
  refine .bare (Decimal.digits_ne_nil n) ?_ fun c hc => isDelimiter_of_isDigit (hdigit c hc)
  intro hmem
  exact absurd (hdigit _ hmem) (by decide)

/-! ## Printed terms -/

namespace Sexp

/-- A term without comments, all of whose symbols have the property. -/
inductive Spelled (p : String → Prop) : Sexp → Prop where
  | numeral (n : UInt64) : Spelled p (.atom (.numeral n))
  | symbol {s : String} (h : p s) : Spelled p (.atom (.symbol s))
  | list {items : List Sexp} (h : ∀ t ∈ items, Spelled p t) : Spelled p (.list items)

/-- Names that satisfy a predicate satisfy a weaker one. -/
theorem Spelled.mono {p q : String → Prop} (hpq : ∀ s, p s → q s) {t : Sexp} (h : t.Spelled p) :
    t.Spelled q := by
  induction h with
  | numeral n => exact .numeral n
  | symbol hs => exact .symbol (hpq _ hs)
  | list _ ih => exact .list ih

/-- The items of a list are spelled like the list. -/
theorem Spelled.of_list {p : String → Prop} {items : List Sexp} (h : (Sexp.list items).Spelled p) :
    ∀ t ∈ items, t.Spelled p := by
  cases h with
  | list h => exact h

section

variable (p : String → Prop) [DecidablePred p]

mutual

/-- Whether a term is free of comments and its symbols have the property. -/
def decSpelled : (t : Sexp) → Decidable (t.Spelled p)
  | .atom (.numeral n) => isTrue (.numeral n)
  | .atom (.symbol s) => decidable_of_iff (p s) ⟨.symbol, fun h => by cases h; assumption⟩
  | .comment _ => isFalse nofun
  | .list items =>
    match decSpelledAll items with
    | isTrue h => isTrue (.list h)
    | isFalse h => isFalse fun hitems => h hitems.of_list

/-- Whether some terms are free of comments and their symbols have the property. -/
def decSpelledAll : (ts : List Sexp) → Decidable (∀ t ∈ ts, t.Spelled p)
  | [] => isTrue (by simp)
  | t :: ts =>
    match decSpelled t, decSpelledAll ts with
    | isTrue h, isTrue hs => isTrue (by simpa using ⟨h, hs⟩)
    | isFalse h, _ => isFalse fun hall => h (hall t (by simp))
    | _, isFalse hs => isFalse fun hall => hs fun t' ht' => hall t' (by simp [ht'])

end

instance (t : Sexp) : Decidable (t.Spelled p) :=
  decSpelled p t

end

/-- The written forms of some terms, each behind a space. -/
def spaced (ts : List Sexp) : List Char :=
  ts.flatMap fun t => ' ' :: t.chars

@[simp] theorem spaced_cons (t : Sexp) (ts : List Sexp) :
    spaced (t :: ts) = ' ' :: t.chars ++ spaced ts := rfl

/-- Items without comments stand one blank apart. -/
theorem itemsChars_cons {p : String → Prop} {t : Sexp} (h : t.Spelled p) (separate : Bool)
    (ts : List Sexp) : itemsChars separate (t :: ts)
      = (if separate then [' '] else []) ++ t.chars ++ itemsChars true ts := by
  cases h <;> rw [itemsChars] <;> nofun

/-- Behind another item each has a blank in front. -/
theorem itemsChars_true {p : String → Prop} {ts : List Sexp} (h : ∀ t ∈ ts, t.Spelled p) :
    itemsChars true ts = spaced ts := by
  induction ts with
  | nil => rfl
  | cons t ts ih =>
    rw [itemsChars_cons (h t (by simp)), ih fun t' ht' => h t' (by simp [ht'])]
    rfl

/-- A list is written as its first item and the others behind blanks, in parentheses. -/
theorem chars_list_cons {p : String → Prop} {t : Sexp} {ts : List Sexp}
    (h : (list (t :: ts)).Spelled p) :
    (list (t :: ts)).chars = '(' :: t.chars ++ spaced ts ++ [')'] := by
  have hitems := h.of_list
  rw [chars, itemsChars_cons (hitems t (by simp)),
    itemsChars_true fun t' ht' => hitems t' (by simp [ht'])]
  rfl

/-! ## Let blocks -/

/-- Whether a list is an application of `let`. -/
def isLet : List Sexp → Bool
  | .atom (.symbol head) :: _ :: _ => head == "let"
  | _ => false

/-- A term without let blocks. -/
inductive LetFree : Sexp → Prop where
  | atom (a : Atom) : LetFree (.atom a)
  | list {items : List Sexp} (hlet : isLet items = false) (h : ∀ t ∈ items, LetFree t) :
      LetFree (.list items)

end Sexp

end Interpolants
