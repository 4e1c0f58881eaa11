import Interpolants.Proofs.Decoding.Placeholders
import Mathlib.Data.List.Infix

/-!
# Interpolants — texts whose tokens stand apart

A printed term need not be well-formed, and its symbols need not be read as symbols: one that holds
a tab comes apart into two tokens, and the empty one is not seen at all. What holds of all printed
terms is that their text is `Apart`: it is made of blanks, parentheses and tokens, and behind a
token or a closing parenthesis it ends or goes on with a blank or another closing parenthesis. So a
placeholder that takes the place of a let block makes no token with its neighbours.

## The architecture

* **`Ordinary`** — a token that is read in one piece and is no placeholder.
* **`Apart`** — built from the front, as texts are read.
* **`Apart.of_isBare`** — a piece without parentheses and pipes comes apart at its blanks.
* **`Sexp.Spelled.apart`** — printed terms are such texts.
-/

namespace Interpolants

open Text

/-- A token that is read in one piece and whose name is no placeholder. -/
structure Ordinary (token : List Char) : Prop where
  form : TokenForm token
  name : ¬ Decode.IsPlaceholder (unquote token)

/-- The text ends, or goes on with a blank or a closing parenthesis. -/
def Parting (cs : List Char) : Prop :=
  ∀ c ∈ cs.head?, isBlank c = true ∨ c = ')'

/-- A text whose tokens stand apart. -/
inductive Apart : List Char → Prop where
  | nil : Apart []
  | blank {c : Char} {cs : List Char} (hc : isBlank c = true) (h : Apart cs) : Apart (c :: cs)
  | opening {cs : List Char} (h : Apart cs) : Apart ('(' :: cs)
  | closing {cs : List Char} (hparting : Parting cs) (h : Apart cs) : Apart (')' :: cs)
  | token {token cs : List Char} (htoken : Ordinary token) (hparting : Parting cs) (h : Apart cs) :
      Apart (token ++ cs)

section

variable {cs ds : List Char}

theorem parting_nil : Parting [] :=
  nofun

theorem parting_blank {c : Char} (hc : isBlank c = true) (cs : List Char) : Parting (c :: cs) := by
  rintro _ ⟨⟩
  exact Or.inl hc

theorem parting_close (cs : List Char) : Parting (')' :: cs) := by
  rintro _ ⟨⟩
  exact Or.inr rfl

theorem Parting.left (h : Parting (cs ++ ds)) : Parting cs := by
  cases cs with
  | nil => exact parting_nil
  | cons c cs => exact h

/-- Without its last character a text still starts with a blank or a parenthesis, if it goes on at
all. -/
theorem Parting.dropLast (h : Parting cs) : Parting cs.dropLast := by
  cases cs with
  | nil => exact parting_nil
  | cons c cs =>
    cases cs with
    | nil => exact parting_nil
    | cons c' cs => exact h

/-- Two such texts, one behind the other, are such a text. -/
theorem Parting.append (hcs : Parting cs) (hds : Parting ds) : Parting (cs ++ ds) := by
  cases cs with
  | nil => exact hds
  | cons c cs => exact hcs

/-- A token ends before a blank or a closing parenthesis. -/
theorem Parting.boundary (h : Parting cs) : Boundary cs := by
  intro c hc
  rcases h c hc with hblank | rfl
  · rw [isDelimiter, hblank]
    rfl
  · exact isDelimiter_close

/-- No let block starts across a blank or a closing parenthesis. -/
theorem Parting.calm (h : Parting cs) : Calm cs := by
  intro c hc
  have hdelim := h.boundary c hc
  refine ⟨?_, ?_, ?_⟩ <;> rintro rfl <;> exact absurd hdelim (by decide)

/-- No parting text starts with an opening parenthesis. -/
theorem not_parting_open (cs : List Char) : ¬ Parting ('(' :: cs) := by
  intro h
  rcases h '(' rfl with hblank | hclose
  · exact absurd hblank (by decide)
  · exact absurd hclose (by decide)

end

/-! ## Printed terms -/

/-- A symbol without pipes that spells neither the start of a placeholder nor that of a let
block. -/
structure Unreserved (name : String) : Prop where
  unpiped : '|' ∉ name.toList
  unnumbered : ¬ "#let".toList <:+: name.toList
  unmarked : ¬ Marked name.toList

instance : DecidablePred Unreserved := fun name =>
  decidable_of_iff ('|' ∉ name.toList ∧ ¬ "#let".toList <:+: name.toList ∧ ¬ Marked name.toList)
    ⟨fun ⟨h₁, h₂, h₃⟩ => ⟨h₁, h₂, h₃⟩, fun ⟨h₁, h₂, h₃⟩ => ⟨h₁, h₂, h₃⟩⟩

/-- A name in which the start of placeholders does not occur is none. -/
theorem Decode.not_isPlaceholder_of_infix {name : String} (h : ¬ "#let".toList <:+: name.toList) :
    ¬ IsPlaceholder name := by
  rintro ⟨n, rfl⟩
  refine h ?_
  rw [String.toList_ofList (l := _ ++ _)]
  exact (List.prefix_append "#let".toList _).isInfix

/-- A token without pipes stands for itself. -/
theorem unquote_of_not_mem {token : List Char} (h : '|' ∉ token) :
    unquote token = String.ofList token := by
  unfold unquote
  split
  · exact absurd List.mem_cons_self h
  · rfl

/-- A piece of a text runs without blanks up to some place and goes on with one there. -/
theorem exists_word (cs : List Char) :
    ∃ word more, cs = word ++ more ∧ (∀ c ∈ word, isBlank c = false) ∧
      ∀ c ∈ more.head?, isBlank c = true := by
  refine ⟨cs.takeWhile fun c => !isBlank c, cs.dropWhile fun c => !isBlank c,
    List.takeWhile_append_dropWhile.symm, fun c hc => ?_, fun c hc => ?_⟩
  · simpa using List.mem_takeWhile_imp hc
  · have hhead := List.head?_dropWhile_not (fun c => !isBlank c) cs
    rw [Option.mem_def.1 hc] at hhead
    simpa using hhead

/-- Characters that a bare token may hold, apart from blanks. -/
def IsBare (cs : List Char) : Prop :=
  (∀ c ∈ cs, c ≠ '(' ∧ c ≠ ')' ∧ c ≠ '|') ∧ ¬ "#let".toList <:+: cs

/-- What is asked of the characters of a text is asked of its pieces. -/
theorem IsBare.of_infix {cs ds : List Char} (h : IsBare ds) (hwithin : cs <:+: ds) : IsBare cs :=
  ⟨fun c hc => h.1 c (hwithin.subset hc), fun hname => h.2 (hname.trans hwithin)⟩

/-- Bare characters without blanks are an ordinary token. -/
theorem IsBare.ordinary {cs : List Char} (h : IsBare cs) (hne : cs ≠ [])
    (hbare : ∀ c ∈ cs, isBlank c = false) : Ordinary cs := by
  obtain ⟨hplain, hname⟩ := h
  have hpipe : '|' ∉ cs := fun hmem => (hplain '|' hmem).2.2 rfl
  refine ⟨.bare hne hpipe fun c hc => ?_, ?_⟩
  · obtain ⟨hopen, hclose, -⟩ := hplain c hc
    simp [isDelimiter, hbare c hc, hopen, hclose]
  · rw [unquote_of_not_mem hpipe]
    exact Decode.not_isPlaceholder_of_infix (by rwa [String.toList_ofList (l := cs)])

namespace Apart

variable {cs rest : List Char}

/-- A piece of a text without parentheses and pipes comes apart at its blanks. -/
theorem of_isBare (h : IsBare cs) (hparting : Parting rest) (hrest : Apart rest) :
    Apart (cs ++ rest) := by
  induction hlength : cs.length using Nat.strongRecOn generalizing cs with
  | ind n ih =>
    subst hlength
    obtain ⟨word, more, rfl, hword, hmore⟩ := exists_word cs
    have hends : Parting more := fun c hc => Or.inl (hmore c hc)
    rcases eq_or_ne word [] with rfl | hne
    · -- a blank, or the end of the piece
      rw [List.nil_append] at h ih ⊢
      cases more with
      | nil => exact hrest
      | cons c more =>
        exact .blank (hmore c rfl)
          (ih _ (by simp) (h.of_infix (List.suffix_cons c more).isInfix) rfl)
    · have hlt : more.length < (word ++ more).length := by
        have := List.length_pos_iff.2 hne
        rw [List.length_append]
        omega
      -- up to the next blank the characters are one token
      have hordinary := (h.of_infix (List.prefix_append word more).isInfix).ordinary hne hword
      rw [List.append_assoc]
      exact .token hordinary (hends.append hparting)
        (ih _ hlt (h.of_infix (List.suffix_append word more).isInfix) rfl)

end Apart

namespace Sexp

variable {rest : List Char}

/-- Digits are bare. -/
theorem isBare_digits (n : Nat) : IsBare (Decimal.digits n) := by
  have hdigit : ∀ c ∈ Decimal.digits n, c.isDigit = true :=
    List.all_eq_true.1 (Decimal.isNumeral_digits n)
  refine ⟨fun c hc => ?_, fun hname => ?_⟩
  · have := hdigit c hc
    refine ⟨?_, ?_, ?_⟩ <;> rintro rfl <;> exact absurd this (by decide)
  · exact absurd (hdigit '#' (hname.subset (by decide))) (by decide)

/-- A number in front of tokens that stand apart stands apart from them. -/
theorem apart_digits (n : Nat) (hparting : Parting rest) (hrest : Apart rest) :
    Apart (Decimal.digits n ++ rest) :=
  .of_isBare (isBare_digits n) hparting hrest

/-- A symbol with a special character is one token, and any other comes apart at its blanks. -/
theorem apart_symbol {name : String} (h : Unreserved name) (hparting : Parting rest)
    (hrest : Apart rest) : Apart ((Atom.symbol name).chars ++ rest) := by
  have hname := Decode.not_isPlaceholder_of_infix h.unnumbered
  rcases Sexp.chars_symbol_cases name with ⟨-, hchars⟩ | ⟨-, hpipe, -⟩ | ⟨hplain, -, hchars⟩
  · have hunquote : unquote ('|' :: (name.toList ++ ['|'])) = name := by
      rw [unquote_quoted, String.ofList_toList]
    rw [hchars]
    exact .token ⟨.quoted h.unpiped h.unmarked, by rwa [hunquote]⟩ hparting hrest
  · exact absurd hpipe h.unpiped
  · rw [hchars]
    refine .of_isBare ⟨fun c hc => ⟨?_, ?_, ?_⟩, h.unnumbered⟩ hparting hrest <;> rintro rfl
    · exact absurd (hplain _ hc) (by decide)
    · exact absurd (hplain _ hc) (by decide)
    · exact h.unpiped hc

/-- Terms with blanks between them start with a blank, after the first. -/
theorem parting_spaced (ts : List Sexp) (hparting : Parting rest) :
    Parting (spaced ts ++ rest) := by
  cases ts with
  | nil => exact hparting
  | cons t ts => exact parting_blank (by decide) _

/-- The tokens of some terms with blanks between them stand apart if those of each term do. -/
theorem apart_spaced {ts : List Sexp}
    (hts : ∀ t ∈ ts, ∀ rest, Parting rest → Apart rest → Apart (t.chars ++ rest))
    (hparting : Parting rest) (hrest : Apart rest) : Apart (spaced ts ++ rest) := by
  induction ts with
  | nil => exact hrest
  | cons t ts ih =>
    have hmore := ih fun t' ht' => hts t' (List.mem_cons_of_mem t ht')
    rw [spaced_cons, List.append_assoc]
    exact .blank (by decide) (hts t List.mem_cons_self _ (parting_spaced ts hparting) hmore)

/-- **In a printed term the tokens stand apart**, well-formed or not. -/
theorem Spelled.apart {t : Sexp} (h : t.Spelled Unreserved) (hparting : Parting rest)
    (hrest : Apart rest) : Apart (t.chars ++ rest) := by
  induction h generalizing rest with
  | numeral n => exact apart_digits n.toNat hparting hrest
  | symbol hs => exact apart_symbol hs hparting hrest
  | @list items hitems ih =>
    have hclose : Apart (')' :: rest) := .closing hparting hrest
    cases items with
    | nil => exact .opening hclose
    | cons t ts =>
      rw [chars_list_cons (.list hitems), List.append_assoc, List.append_assoc,
        List.singleton_append]
      have hmore := apart_spaced (fun t' ht' _ => ih t' (List.mem_cons_of_mem t ht'))
        (parting_close rest) hclose
      exact .opening (ih t List.mem_cons_self (parting_spaced ts (parting_close rest)) hmore)

end Sexp

end Interpolants
