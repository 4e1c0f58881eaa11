import Interpolants.Proofs.Decoding.Scoping
import Interpolants.Proofs.Text.Reader
import Interpolants.Sexp.Parser

/-!
# Interpolants — what is read as an s-expression

The grammar of s-expressions in both directions. `Taken` lists what can stand in front of a text
that an s-expression is read off; the lemmas `value_…_iff` say of the parts of the grammar that this
is all, and that it is read wherever it stands.
-/

namespace Interpolants

namespace Sexp

open Text Text.Reader

/-! ## Atoms -/

/-- The place behind a bare symbol or a numeral: neither goes on there. -/
def Halts (cs : List Char) : Prop :=
  ∀ c ∈ cs.head?, isSymbolChar c = false

section

variable {cs rest : List Char} {s : String}

/-- Between two marks stands a symbol without the mark. -/
theorem value_between_iff {mark : Char} :
    (between mark cs).value = some (s, rest) ↔
      cs = mark :: (s.toList ++ mark :: rest) ∧ mark ∉ s.toList := by
  constructor
  · intro h
    obtain ⟨u, inside, hopen, h⟩ := value_bind_eq_some_iff.1 h
    obtain ⟨content, behind, hcontent, h⟩ := value_bind_eq_some_iff.1 h
    obtain ⟨u', rest', hclose, h⟩ := value_bind_eq_some_iff.1 h
    cases h
    obtain ⟨rfl, hall, -⟩ := value_takeWhile_eq_some_iff.1 hcontent
    rw [value_word_singleton_iff.1 hopen, value_word_singleton_iff.1 hclose, String.toList_ofList]
    exact ⟨rfl, fun hmem => by simpa using hall mark hmem⟩
  · rintro ⟨rfl, hmark⟩
    unfold between
    rw [value_bind_of_some (value_word_head mark _),
      value_bind_of_some (value_takeWhile_of_not_mem hmark rest),
      value_bind_of_some (value_word_head mark _), String.ofList_toList]
    rfl

/-- A simple symbol starts as a symbol may and goes on with what may stand in one. -/
theorem isSimple_iff {c : Char} {cs : List Char} (h : s.toList = c :: cs) :
    isSimple s = true ↔ isSymbolStart c = true ∧ ∀ c' ∈ cs, isSymbolChar c' = true := by
  unfold isSimple
  rw [h, Bool.and_eq_true, List.all_eq_true]

/-- A simple symbol is read to where it halts. -/
theorem value_bareSymbol_iff :
    (bareSymbol cs).value = some (s, rest) ↔
      cs = s.toList ++ rest ∧ isSimple s = true ∧ Halts rest := by
  constructor
  · intro h
    obtain ⟨first, behind, hfirst, h⟩ := value_bind_eq_some_iff.1 h
    obtain ⟨more, rest', hmore, h⟩ := value_bind_eq_some_iff.1 h
    cases h
    obtain ⟨rfl, hstart⟩ := value_one_eq_some_iff.1 hfirst
    obtain ⟨rfl, hall, hhalts⟩ := value_takeWhile_eq_some_iff.1 hmore
    have hname : (String.ofList (first :: more)).toList = first :: more := String.toList_ofList
    exact ⟨by rw [hname]; rfl, (isSimple_iff hname).2 ⟨hstart, hall⟩, hhalts⟩
  · rintro ⟨rfl, hsimple, hhalts⟩
    obtain ⟨first, more, hname, -⟩ := exists_cons_of_isSimple hsimple
    obtain ⟨hstart, hall⟩ := (isSimple_iff hname).1 hsimple
    have hmore : (takeWhile isSymbolChar (more ++ rest)).value = some (more, rest) :=
      value_takeWhile_eq_some_iff.2 ⟨rfl, hall, hhalts⟩
    unfold bareSymbol
    rw [hname, List.cons_append, value_bind_of_some (value_one_of_pos hstart _),
      value_bind_of_some hmore, ← hname, String.ofList_toList]
    rfl

/-- A numeral is read off digits. -/
theorem exists_of_value_natural {n : UInt64} (h : (natural cs).value = some (n, rest)) :
    ∃ digits, cs = digits ++ rest ∧ ∀ c ∈ digits, c.isDigit = true := by
  obtain ⟨first, behind, hfirst, hbehind⟩ := value_bind_eq_some_iff.1 h
  obtain ⟨more, rest', hmore, hword⟩ := value_bind_eq_some_iff.1 hbehind
  obtain ⟨rfl, hdigit⟩ := value_one_eq_some_iff.1 hfirst
  obtain ⟨rfl, hall, -⟩ := value_takeWhile_eq_some_iff.1 hmore
  -- a numeral that does not fit is not read
  cases hn : Word.unsigned? (Decimal.value (first :: more)) with
  | none =>
    rw [hn] at hword
    cases hword
  | some n =>
    rw [hn] at hword
    cases hword
    exact ⟨first :: more, rfl, List.forall_mem_cons.2 ⟨hdigit, hall⟩⟩

theorem isSymbolChar_of_isDigit {c : Char} (h : c.isDigit = true) : isSymbolChar c = true := by
  simp [isSymbolChar, h]

/-- A number has a first digit. -/
theorem exists_cons_digits (n : Nat) : ∃ c cs, Decimal.digits n = c :: cs ∧ c.isDigit = true := by
  obtain ⟨c, cs, heq⟩ := List.exists_cons_of_ne_nil (Decimal.digits_ne_nil n)
  have hdigits := List.all_eq_true.1 (Decimal.isNumeral_digits n)
  exact ⟨c, cs, heq, hdigits c (by rw [heq]; exact List.mem_cons_self)⟩

/-- The digits of a number are read as it. -/
theorem value_natural (n : UInt64) (hrest : Halts rest) :
    (natural (Decimal.digits n.toNat ++ rest)).value = some (n, rest) := by
  have hdigits := List.all_eq_true.1 (Decimal.isNumeral_digits n.toNat)
  obtain ⟨first, more, heq⟩ := List.exists_cons_of_ne_nil (Decimal.digits_ne_nil n.toNat)
  rw [heq] at hdigits
  have hmore : (takeWhile Char.isDigit (more ++ rest)).value = some (more, rest) := by
    refine value_takeWhile_eq_some_iff.2
      ⟨rfl, fun c hc => hdigits c (List.mem_cons_of_mem first hc), fun c hc => ?_⟩
    rw [Bool.eq_false_iff]
    intro hdigit
    -- a digit is a character of symbols too, and there is none behind the numeral
    have hhalt := hrest c hc
    rw [isSymbolChar_of_isDigit hdigit] at hhalt
    cases hhalt
  have hword : Word.unsigned? (Decimal.value (first :: more)) = some n := by
    rw [← heq, Decimal.value_digits]
    exact Word.unsigned?_eq_some_iff.2 rfl
  unfold natural
  rw [heq, List.cons_append,
    value_bind_of_some (value_one_of_pos (hdigits first List.mem_cons_self) _),
    value_bind_of_some hmore, hword]
  rfl

/-! ## Alternatives

The first characters of the alternatives are different, so at most one of them reads a text. -/

theorem value_between_eq_none {mark c : Char} (h : mark ≠ c) (cs : List Char) :
    ((do return symbol (← between mark)) (c :: cs)).value = none :=
  value_bind_of_none (value_bind_of_none (value_word_of_ne h [] cs) _) _

theorem value_bareSymbol_eq_none {c : Char} (h : isSymbolStart c = false) (cs : List Char) :
    ((do return symbol (← bareSymbol)) (c :: cs)).value = none :=
  value_bind_of_none (value_bind_of_none (value_one_of_neg h cs) _) _

theorem value_natural_eq_none {c : Char} (h : c.isDigit = false) (cs : List Char) :
    ((do return numeral (← natural)) (c :: cs)).value = none :=
  value_bind_of_none (value_bind_of_none (value_one_of_neg h cs) _) _

theorem ne_of_isSymbolStart {c : Char} (h : isSymbolStart c = true) : '"' ≠ c ∧ '|' ≠ c := by
  constructor <;> rintro rfl <;> exact absurd h (by decide)

theorem ne_of_isDigit {c : Char} (h : c.isDigit = true) : '"' ≠ c ∧ '|' ≠ c := by
  constructor <;> rintro rfl <;> exact absurd h (by decide)

/-- No bare symbol starts with a digit. -/
theorem isSymbolStart_of_isDigit {c : Char} (h : c.isDigit = true) : isSymbolStart c = false := by
  rw [Bool.eq_false_iff]
  intro hstart
  rw [(of_isSymbolStart hstart).1] at h
  cases h

/-- A symbol between marks is read back. -/
theorem value_anyAtom_quoted {mark : Char} (hmark : mark = '"' ∨ mark = '|') (h : mark ∉ s.toList)
    (rest : List Char) :
    (anyAtom (mark :: (s.toList ++ mark :: rest))).value = some (symbol s, rest) := by
  have hbetween : ((do return symbol (← between mark)) (mark :: (s.toList ++ mark :: rest))).value
      = some (symbol s, rest) :=
    value_bind_of_some (value_between_iff.2 ⟨rfl, h⟩) _
  rcases hmark with rfl | rfl
  · rw [anyAtom, value_firstOf_cons, hbetween, Option.some_or]
  · rw [anyAtom, value_firstOf_cons, value_between_eq_none (by decide), Option.none_or,
      value_firstOf_cons, hbetween, Option.some_or]

/-- A simple symbol is read back where it halts. -/
theorem value_anyAtom_simple (h : isSimple s = true) (hrest : Halts rest) :
    (anyAtom (s.toList ++ rest)).value = some (symbol s, rest) := by
  have hbare : ((do return symbol (← bareSymbol)) (s.toList ++ rest)).value
      = some (symbol s, rest) :=
    value_bind_of_some (value_bareSymbol_iff.2 ⟨rfl, h, hrest⟩) _
  obtain ⟨c, cs, heq, hstart, -⟩ := exists_cons_of_isSimple h
  obtain ⟨hquote, hpipe⟩ := ne_of_isSymbolStart hstart
  rw [heq, List.cons_append] at hbare ⊢
  rw [anyAtom, value_firstOf_cons, value_between_eq_none hquote, Option.none_or, value_firstOf_cons,
    value_between_eq_none hpipe, Option.none_or, value_firstOf_cons, hbare, Option.some_or]

/-- A numeral is read back where it halts. -/
theorem value_anyAtom_numeral (n : UInt64) (hrest : Halts rest) :
    (anyAtom (Decimal.digits n.toNat ++ rest)).value = some (numeral n, rest) := by
  have hnatural : ((do return numeral (← natural)) (Decimal.digits n.toNat ++ rest)).value
      = some (numeral n, rest) :=
    value_bind_of_some (value_natural n hrest) _
  obtain ⟨c, cs, heq, hdigit⟩ := exists_cons_digits n.toNat
  obtain ⟨hquote, hpipe⟩ := ne_of_isDigit hdigit
  rw [heq, List.cons_append] at hnatural ⊢
  rw [anyAtom, value_firstOf_cons, value_between_eq_none hquote, Option.none_or, value_firstOf_cons,
    value_between_eq_none hpipe, Option.none_or, value_firstOf_cons,
    value_bareSymbol_eq_none (isSymbolStart_of_isDigit hdigit), Option.none_or, value_firstOf_cons,
    hnatural, Option.some_or]

/-- No atom starts with any other character. -/
theorem value_anyAtom_eq_none {c : Char} (hquote : '"' ≠ c) (hpipe : '|' ≠ c)
    (hstart : isSymbolStart c = false) (hdigit : c.isDigit = false) (cs : List Char) :
    (anyAtom (c :: cs)).value = none := by
  rw [anyAtom, value_firstOf_cons, value_between_eq_none hquote, Option.none_or, value_firstOf_cons,
    value_between_eq_none hpipe, Option.none_or, value_firstOf_cons,
    value_bareSymbol_eq_none hstart, Option.none_or, value_firstOf_cons,
    value_natural_eq_none hdigit, Option.none_or]
  rfl

/-! ## S-expressions -/

variable {depth : Nat} {text : String} {items : List Sexp}

/-- What is read as an atom is read as an s-expression. -/
theorem value_nested_atom {t : Sexp} (h : (anyAtom cs).value = some (t, rest)) (depth : Nat) :
    (nested (depth + 1) cs).value = some (t, rest) := by
  rw [nested, value_firstOf_cons, h, Option.some_or]

/-- A comment goes from its semicolon to the end of the line. -/
theorem value_lineComment_iff {t : Sexp} :
    (lineComment cs).value = some (t, rest) ↔
      ∃ text : String, t = .comment text ∧ '\n' ∉ text.toList ∧
        cs = ';' :: (text.toList ++ '\n' :: rest) := by
  constructor
  · intro h
    obtain ⟨u, inside, hopen, hinside⟩ := value_bind_eq_some_iff.1 h
    obtain ⟨content, behind, hcontent, hbehind⟩ := value_bind_eq_some_iff.1 hinside
    obtain ⟨u', rest', hclose, hdone⟩ := value_bind_eq_some_iff.1 hbehind
    cases hdone
    obtain ⟨rfl, hall, -⟩ := value_takeWhile_eq_some_iff.1 hcontent
    refine ⟨String.ofList content, rfl, ?_, ?_⟩
    · rw [String.toList_ofList]
      exact fun hmem => by simpa using hall '\n' hmem
    · rw [value_word_singleton_iff.1 hopen, value_word_singleton_iff.1 hclose, String.toList_ofList]
  · rintro ⟨text, rfl, hline, rfl⟩
    unfold lineComment
    rw [value_bind_of_some (value_word_head ';' _),
      value_bind_of_some (value_takeWhile_of_not_mem hline rest),
      value_bind_of_some (value_word_head '\n' _), String.ofList_toList]
    rfl

/-- A comment of one line is read back. -/
theorem value_nested_comment (hline : '\n' ∉ text.toList) (depth : Nat) (rest : List Char) :
    (nested (depth + 1) (';' :: (text.toList ++ '\n' :: rest))).value
      = some (.comment text, rest) := by
  rw [nested, value_firstOf_cons,
    value_anyAtom_eq_none (by decide) (by decide) (by decide) (by decide), Option.none_or,
    value_firstOf_cons, value_lineComment_iff.2 ⟨text, rfl, hline, rfl⟩, Option.some_or]

/-- A list is read with its parentheses, the closing one behind spaces. -/
theorem value_parens_iff {t : Sexp} {elements : Reader (List Sexp)} :
    ((do
        Reader.word ['(']
        let items ← elements
        Reader.spaces
        Reader.word [')']
        return .list items : Reader Sexp) cs).value = some (t, rest) ↔
      ∃ items inside mid, t = .list items ∧ cs = '(' :: inside ∧
        (elements inside).value = some (items, mid) ∧ mid.dropWhile isSpace = ')' :: rest := by
  constructor
  · intro h
    obtain ⟨u, inside, hopen, hinside⟩ := value_bind_eq_some_iff.1 h
    obtain ⟨items, mid, hitems, hmid⟩ := value_bind_eq_some_iff.1 hinside
    rw [value_bind_of_some (value_spaces mid)] at hmid
    obtain ⟨u', rest', hclose, hdone⟩ := value_bind_eq_some_iff.1 hmid
    cases hdone
    exact ⟨items, inside, mid, rfl, value_word_singleton_iff.1 hopen, hitems,
      value_word_singleton_iff.1 hclose⟩
  · rintro ⟨items, inside, mid, rfl, rfl, hitems, hclose⟩
    rw [value_bind_of_some (value_word_head '(' inside), value_bind_of_some hitems,
      value_bind_of_some (value_spaces mid), hclose, value_bind_of_some (value_word_head ')' rest)]
    rfl

/-- A list is read item by item up to its parenthesis. -/
theorem value_nested_list {mid : List Char}
    (hitems : (many (nested depth) cs).value = some (items, mid))
    (hclose : mid.dropWhile isSpace = ')' :: rest) :
    (nested (depth + 1) ('(' :: cs)).value = some (.list items, rest) := by
  have hatom := value_anyAtom_eq_none (c := '(') (by decide) (by decide) (by decide) (by decide) cs
  have hcomment : (lineComment ('(' :: cs)).value = none :=
    value_bind_of_none (value_word_of_ne (by decide) [] cs) _
  rw [nested, value_firstOf_cons, hatom, Option.none_or, value_firstOf_cons, hcomment,
    Option.none_or, value_firstOf_cons,
    value_parens_iff.2 ⟨items, cs, mid, rfl, rfl, hitems, hclose⟩, Option.some_or]

/-- Nothing is read at a closing parenthesis or at the end of a text. -/
theorem value_nested_eq_none (h : ∀ c ∈ cs.head?, c = ')') (depth : Nat) :
    (nested depth cs).value = none := by
  cases depth with
  | zero => rfl
  | succ depth =>
    cases cs with
    | nil => rfl
    | cons c cs =>
      obtain rfl := h c rfl
      have hatom :=
        value_anyAtom_eq_none (c := ')') (by decide) (by decide) (by decide) (by decide) cs
      have hcomment : (lineComment (')' :: cs)).value = none :=
        value_bind_of_none (value_word_of_ne (by decide) [] cs) _
      rw [nested, value_firstOf_cons, hatom, Option.none_or, value_firstOf_cons, hcomment,
        Option.none_or, value_firstOf_cons, value_bind_of_none (value_word_of_ne (by decide) [] cs)]
      rfl

/-- What stands in front of a text that an s-expression is read off, and what is left of it. -/
inductive Taken (depth : Nat) : List Char → Sexp → List Char → Prop where
  | quoted {mark : Char} {s : String} (hmark : mark = '"' ∨ mark = '|') (h : mark ∉ s.toList)
      (rest : List Char) : Taken depth (mark :: (s.toList ++ mark :: rest)) (symbol s) rest
  | simple {s : String} {rest : List Char} (h : isSimple s = true) (hrest : Halts rest) :
      Taken depth (s.toList ++ rest) (symbol s) rest
  | numeral {digits : List Char} (n : UInt64) (h : ∀ c ∈ digits, c.isDigit = true)
      (rest : List Char) : Taken depth (digits ++ rest) (numeral n) rest
  | comment {text : String} (h : '\n' ∉ text.toList) (rest : List Char) :
      Taken depth (';' :: (text.toList ++ '\n' :: rest)) (.comment text) rest
  | list {inside mid rest : List Char} {items : List Sexp}
      (hitems : (many (nested depth) inside).value = some (items, mid))
      (hclose : mid.dropWhile isSpace = ')' :: rest) :
      Taken depth ('(' :: inside) (.list items) rest

/-- An atom that is read is one of three kinds. -/
theorem taken_of_value_anyAtom {t : Sexp} (h : (anyAtom cs).value = some (t, rest)) :
    Taken depth cs t rest := by
  have hread : ∀ {reader : Reader String},
      ((do return symbol (← reader)) cs).value = some (t, rest) →
      ∃ s, (reader cs).value = some (s, rest) ∧ t = symbol s := by
    intro reader h
    obtain ⟨s, rest', hs, hdone⟩ := value_bind_eq_some_iff.1 h
    cases hdone
    exact ⟨s, hs, rfl⟩
  -- the four readers in the order in which they are tried
  rw [anyAtom, value_firstOf_cons] at h
  rcases Option.or_eq_some_iff.1 h with h | ⟨-, h⟩
  · obtain ⟨s, hs, rfl⟩ := hread h
    obtain ⟨rfl, hmark⟩ := value_between_iff.1 hs
    exact .quoted (Or.inl rfl) hmark rest
  rw [value_firstOf_cons] at h
  rcases Option.or_eq_some_iff.1 h with h | ⟨-, h⟩
  · obtain ⟨s, hs, rfl⟩ := hread h
    obtain ⟨rfl, hmark⟩ := value_between_iff.1 hs
    exact .quoted (Or.inr rfl) hmark rest
  rw [value_firstOf_cons] at h
  rcases Option.or_eq_some_iff.1 h with h | ⟨-, h⟩
  · obtain ⟨s, hs, rfl⟩ := hread h
    obtain ⟨rfl, hsimple, hrest⟩ := value_bareSymbol_iff.1 hs
    exact .simple hsimple hrest
  rw [value_firstOf_cons] at h
  rcases Option.or_eq_some_iff.1 h with h | ⟨-, h⟩
  · obtain ⟨n, rest', hn, hdone⟩ := value_bind_eq_some_iff.1 h
    cases hdone
    obtain ⟨digits, rfl, hdigits⟩ := exists_of_value_natural hn
    exact .numeral n hdigits rest
  · cases h

/-- An s-expression that is read is an atom, a comment or a list. -/
theorem taken_of_value_nested {t : Sexp} (h : (nested (depth + 1) cs).value = some (t, rest)) :
    Taken depth cs t rest := by
  rw [nested, value_firstOf_cons] at h
  rcases Option.or_eq_some_iff.1 h with h | ⟨-, h⟩
  · exact taken_of_value_anyAtom h
  rw [value_firstOf_cons] at h
  rcases Option.or_eq_some_iff.1 h with h | ⟨-, h⟩
  · obtain ⟨text, rfl, hline, rfl⟩ := value_lineComment_iff.1 h
    exact .comment hline rest
  rw [value_firstOf_cons] at h
  rcases Option.or_eq_some_iff.1 h with h | ⟨-, h⟩
  · obtain ⟨items, inside, mid, rfl, rfl, hitems, hclose⟩ := value_parens_iff.1 h
    exact .list hitems hclose
  · cases h

/-- Of the symbols that are not simple none is read without a mark in front. -/
theorem isSimple_or_marked (h : (nested depth cs).value = some (symbol s, rest)) :
    isSimple s = true ∨ ∃ cs', cs = '"' :: cs' ∨ cs = '|' :: cs' := by
  obtain _ | depth := depth
  · cases h
  have htaken := taken_of_value_nested h
  generalize ht : symbol s = t at htaken
  cases htaken with
  | quoted hmark =>
    rcases hmark with rfl | rfl
    · exact Or.inr ⟨_, Or.inl rfl⟩
    · exact Or.inr ⟨_, Or.inr rfl⟩
  | simple hsimple =>
    cases ht
    exact Or.inl hsimple
  | numeral => cases ht
  | comment => cases ht
  | list => cases ht

/-- A list is read only off its items and a parenthesis behind them. -/
theorem exists_of_value_nested_list
    (h : (nested (depth + 1) ('(' :: cs)).value = some (.list items, rest)) :
    ∃ mid, (many (nested depth) cs).value = some (items, mid) ∧
    mid.dropWhile isSpace = ')' :: rest := by
  have htaken := taken_of_value_nested h
  generalize hcs : '(' :: cs = cs' at htaken
  cases htaken with
  | list hitems hclose =>
    cases hcs
    exact ⟨_, hitems, hclose⟩

end

end Sexp

end Interpolants
