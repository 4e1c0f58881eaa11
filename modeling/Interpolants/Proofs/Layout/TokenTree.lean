import Interpolants.Proofs.Decoding.Token

/-!
# Interpolants — the texts of a term

A solver may print a term in many ways: between two tokens there may be any blanks, and none beside
a parenthesis. `TokenTree` is what all these texts have in common, the tokens grouped by the
parentheses, and `Laid` relates it to its texts.

## The architecture

* **`Style`** — what is asked of a text. `Style.standard` is the notation of terms; in a text of
  `Style.clear` nothing stands where the search for let blocks misreads it.
* **`Laid`** — a text holds some trees, one after the other. It is built from the front, as texts
  are read.
* **`Laid.uncons`** — the front of a text: blanks, the text of the first tree and the others.
* **`Laid.balanced`, `Laid.boundary`** — what the scanners of `Interpolants.Proofs.Decoding.Token`
  see.
-/

namespace Interpolants

open Text

/-- The tokens of a term, grouped by its parentheses. -/
inductive TokenTree where
  | leaf (token : List Char)
  | node (items : List TokenTree)

namespace TokenTree

def isLeaf : TokenTree → Bool
  | leaf _ => true
  | node _ => false

/-- Whether a tree is the application of `let` to something. -/
def isLet : TokenTree → Bool
  | node (leaf head :: _ :: _) => head == "let".toList
  | _ => false

/-! ## Styles -/

/-- What is asked of a text. -/
structure Style where
  /-- The tokens that may be used. -/
  token : List Char → Prop
  /-- The trees that stand apart: two of them side by side need a blank between them. -/
  apart : TokenTree → Bool
  /-- The trees whose first token stands right behind the parenthesis. -/
  tight : TokenTree → Bool

/-- A bare token, or one between pipes. -/
inductive IsToken : List Char → Prop where
  | bare {cs : List Char} (hne : cs ≠ []) (hpipe : '|' ∉ cs)
      (hdelim : ∀ c ∈ cs, isDelimiter c = false) : IsToken cs
  | quoted {cs : List Char} (hpipe : '|' ∉ cs) : IsToken ('|' :: cs ++ ['|'])

/-- The notation of terms: only two tokens side by side need a blank between them. -/
def Style.standard : Style where
  token := IsToken
  apart := isLeaf
  tight _ := false

/-- The notation of terms with clear let blocks: a block starts with `(let`, stands apart from
tokens and other blocks as a token does, and nothing between two pipes looks like the start of
one. -/
def Style.clear : Style where
  token cs := IsToken cs ∧ ¬ Marked cs
  apart t := t.isLeaf || t.isLet
  tight := isLet

/-- If the first of some trees stands apart, then the text starts with a blank. -/
def Parted (style : Style) (ts : List TokenTree) (cs : List Char) : Prop :=
  ∀ t ∈ ts.head?, style.apart t = true → ∃ c ∈ cs.head?, isBlank c = true

theorem parted_nil {style : Style} {cs : List Char} : Parted style [] cs := by
  rintro t ⟨⟩

/-- A text that holds some trees one after the other, in a style. -/
inductive Laid (style : Style) : List TokenTree → List Char → Prop where
  | nil : Laid style [] []
  | blank {c : Char} {ts : List TokenTree} {cs : List Char} (hc : isBlank c = true)
      (h : Laid style ts cs) : Laid style ts (c :: cs)
  | leaf {token : List Char} {ts : List TokenTree} {cs : List Char} (htoken : style.token token)
      (h : Laid style ts cs) (hparted : style.apart (leaf token) = true → Parted style ts cs) :
      Laid style (leaf token :: ts) (token ++ cs)
  | node {items ts : List TokenTree} {inside cs : List Char} (hitems : Laid style items inside)
      (htight : style.tight (node items) = true → ∀ c ∈ inside.head?, isBlank c = false)
      (h : Laid style ts cs) (hparted : style.apart (node items) = true → Parted style ts cs) :
      Laid style (node items :: ts) ('(' :: inside ++ ')' :: cs)

/-- The text of one tree without blanks around it. -/
def Holds (style : Style) : TokenTree → List Char → Prop
  | leaf token, cs => cs = token ∧ style.token token
  | node items, cs => ∃ inside, cs = '(' :: inside ++ [')'] ∧ Laid style items inside ∧
      (style.tight (node items) = true → ∀ c ∈ inside.head?, isBlank c = false)

section

variable {style : Style} {t : TokenTree} {ts : List TokenTree} {cs : List Char}

/-- One more tree is laid in front of some trees, apart from them if it has to be. -/
theorem Laid.cons {own more : List Char} (hown : Holds style t own) (h : Laid style ts more)
    (hparted : style.apart t = true → Parted style ts more) :
    Laid style (t :: ts) (own ++ more) := by
  cases t with
  | leaf token =>
    obtain ⟨rfl, htoken⟩ := hown
    exact .leaf htoken h hparted
  | node items =>
    obtain ⟨inside, rfl, hitems, htight⟩ := hown
    have hlaid := Laid.node hitems htight h hparted
    simpa using hlaid

/-- **The front of a text**: blanks, the text of the first tree, and what holds the others. -/
theorem Laid.uncons (h : Laid style (t :: ts) cs) :
    ∃ blanks own more, cs = blanks ++ own ++ more ∧ (∀ c ∈ blanks, isBlank c = true) ∧
      Holds style t own ∧ Laid style ts more ∧ (style.apart t = true → Parted style ts more) := by
  generalize hall : t :: ts = all at h
  induction h with
  | nil => cases hall
  | @blank c _ cs hc _ ih =>
    obtain ⟨blanks, own, more, rfl, hblanks, hrest⟩ := ih hall
    exact ⟨c :: blanks, own, more, rfl, List.forall_mem_cons.2 ⟨hc, hblanks⟩, hrest⟩
  | @leaf token _ cs htoken h hparted _ =>
    cases hall
    exact ⟨[], token, cs, rfl, nofun, ⟨rfl, htoken⟩, h, hparted⟩
  | @node items _ inside cs hitems htight h hparted _ _ =>
    cases hall
    exact ⟨[], '(' :: inside ++ [')'], cs, by simp, nofun, ⟨inside, rfl, hitems, htight⟩, h,
      hparted⟩

/-- Blanks may stand in front of some trees. -/
theorem Laid.blanks {blanks : List Char} (hblanks : ∀ c ∈ blanks, isBlank c = true)
    (h : Laid style ts cs) : Laid style ts (blanks ++ cs) := by
  induction blanks with
  | nil => exact h
  | cons c blanks ih =>
    obtain ⟨hc, hblanks⟩ := List.forall_mem_cons.1 hblanks
    exact .blank hc (ih hblanks)

/-- A text of no trees holds nothing but blanks. -/
theorem Laid.of_nil (h : Laid style [] cs) : ∀ c ∈ cs, isBlank c = true := by
  generalize hall : ([] : List TokenTree) = all at h
  induction h with
  | nil => nofun
  | blank hc _ ih => exact List.forall_mem_cons.2 ⟨hc, ih hall⟩
  | leaf | node => cases hall

/-- The text of a tree is a text of the list of this tree alone. -/
theorem Holds.laid {own : List Char} (h : Holds style t own) : Laid style [t] own := by
  have hlaid := Laid.cons h .nil fun _ => parted_nil
  rwa [List.append_nil] at hlaid

end

/-! ## Clear texts -/

/-- A token in which no let block starts is read in one piece. -/
theorem IsToken.form {token : List Char} (h : IsToken token) (hmark : ¬ Marked token) :
    TokenForm token := by
  cases h with
  | bare hne hpipe hdelim => exact .bare hne hpipe hdelim
  | quoted hpipe => exact .quoted hpipe fun h => hmark (h.of_infix ⟨['|'], ['|'], rfl⟩)

section

variable {token : List Char} {t : TokenTree} {ts : List TokenTree} {cs : List Char}

/-- The tokens of clear texts are read in one piece. -/
theorem Style.clear_token (h : Style.clear.token token) : TokenForm token :=
  h.1.form h.2

/-- A token that is read in one piece may stand in clear texts. -/
theorem Style.clear_of_form (h : TokenForm token) : Style.clear.token token := by
  refine ⟨?_, not_marked_of_splitAtLet (splitAtLet_eq_none h.inert)⟩
  cases h with
  | bare hne hpipe hdelim => exact .bare hne hpipe hdelim
  | quoted hpipe => exact .quoted hpipe

/-- Behind a token or a let block a text ends, or goes on with a delimiter. -/
theorem Laid.boundary (h : Laid .clear ts cs) (hparted : Parted .clear ts cs) : Boundary cs := by
  intro c hc
  have hblank : isBlank c = true → isDelimiter c = true := fun hblank => by
    rw [isDelimiter, hblank]
    rfl
  cases h with
  | nil => cases hc
  | blank hfirst =>
    cases hc
    exact hblank hfirst
  | leaf =>
    obtain ⟨c', hc', hfirst⟩ := hparted _ rfl rfl
    cases Option.mem_unique hc hc'
    exact hblank hfirst
  | node =>
    cases hc
    exact isDelimiter_open

/-- What follows a token or a let block goes on with a delimiter also before a closing
parenthesis. -/
theorem Laid.boundary_close (h : Laid .clear ts cs) (hparted : Parted .clear ts cs)
    (rest : List Char) : Boundary (cs ++ ')' :: rest) := by
  have hcs := h.boundary hparted
  intro c hc
  cases cs with
  | nil =>
    cases hc
    exact isDelimiter_close
  | cons => exact hcs c hc

/-- No let block starts across the end of a token. -/
theorem calm_of_boundary (h : Boundary cs) : Calm cs := by
  intro c hc
  have hdelim := h c hc
  refine ⟨?_, ?_, ?_⟩ <;> rintro rfl <;> exact absurd hdelim (by decide)

/-- **In a clear text the parentheses match.** -/
theorem Laid.balanced (h : Laid .clear ts cs) : Balanced cs := by
  induction h with
  | nil => exact Balanced.nil
  | @blank c _ cs hc _ ih =>
    have hplain : ∀ c' ∈ [c], c' ≠ '(' ∧ c' ≠ ')' ∧ c' ≠ '|' := by
      rw [List.forall_mem_singleton]
      refine ⟨?_, ?_, ?_⟩ <;> rintro rfl <;> exact absurd hc (by decide)
    exact (Balanced.of_plain hplain).append ih
  | leaf htoken _ _ ih => exact (Style.clear_token htoken).balanced.append ih
  | @node items ts inside cs _ _ _ _ ihitems ih =>
    have happend := ihitems.parens.append ih
    simpa using happend

/-- The text of a tree starts with its parenthesis or with its token. -/
theorem Holds.head {own : List Char} (h : Holds .clear t own) :
    ∃ c more, own = c :: more ∧ isBlank c = false ∧ c ≠ ')' ∧ (isDelimiter c = true ↔ c = '(') ∧
      (t.isLeaf = false ↔ c = '(') := by
  cases t with
  | leaf token =>
    obtain ⟨rfl, htoken⟩ := h
    obtain ⟨c, more, rfl, hdelim⟩ := (Style.clear_token htoken).exists_cons
    obtain ⟨hblank, hopen, hclose⟩ := ne_of_not_isDelimiter hdelim
    exact ⟨c, more, rfl, hblank, hclose, by simp [hdelim, hopen], by simp [isLeaf, hopen]⟩
  | node items =>
    obtain ⟨inside, rfl, -⟩ := h
    exact ⟨'(', _, rfl, by decide, by decide, by decide, by simp [isLeaf]⟩

/-- Behind the blanks at its front a text goes on with the text of its first tree. -/
theorem Laid.front (h : Laid .clear (t :: ts) cs) :
    ∃ own more, Holds .clear t own ∧ Laid .clear ts more ∧
      (Style.clear.apart t = true → Parted .clear ts more) ∧ own.length + more.length ≤ cs.length ∧
      ∀ rest, trimStart (cs ++ rest) = own ++ (more ++ rest) := by
  obtain ⟨blanks, own, more, rfl, hblanks, hown, hmore, hparted⟩ := h.uncons
  refine ⟨own, more, hown, hmore, hparted, by simp only [List.length_append]; omega, fun rest => ?_⟩
  obtain ⟨c, tail, rfl, hc, -⟩ := hown.head
  rw [List.append_assoc, List.append_assoc, trimStart_append hblanks]
  exact trimStart_of_not_isBlank hc _

/-- A text of no trees is skipped with the blanks. -/
theorem Laid.trimStart_of_nil (h : Laid .clear [] cs) (rest : List Char) :
    trimStart (cs ++ rest) = trimStart rest :=
  trimStart_append h.of_nil rest

/-- Every tree takes at least one character. -/
theorem Laid.length_le (h : Laid .clear ts cs) : ts.length ≤ cs.length := by
  induction h with
  | nil => exact Nat.le_refl _
  | blank _ _ ih =>
    rw [List.length_cons]
    omega
  | leaf htoken _ _ ih =>
    obtain ⟨c, token, rfl, -⟩ := (Style.clear_token htoken).exists_cons
    simp only [List.length_append, List.length_cons]
    omega
  | node _ _ _ _ _ ih =>
    simp only [List.length_append, List.length_cons]
    omega

end

/-! ## Checking texts -/

/-- Tokens can be told by looking at their characters. -/
theorem isToken_iff {cs : List Char} :
    IsToken cs ↔ (cs ≠ [] ∧ '|' ∉ cs ∧ (cs.all fun c => !isDelimiter c) = true) ∨
      (cs = '|' :: (cs.drop 1).dropLast ++ ['|'] ∧ '|' ∉ (cs.drop 1).dropLast) := by
  have hall : ((cs.all fun c => !isDelimiter c) = true) ↔ ∀ c ∈ cs, isDelimiter c = false := by
    rw [List.all_eq_true]
    exact forall₂_congr fun c _ => by rw [Bool.not_eq_true']
  rw [hall]
  constructor
  · rintro (⟨hne, hpipe, hdelim⟩ | hpipe)
    · exact Or.inl ⟨hne, hpipe, hdelim⟩
    · exact Or.inr (by simpa using hpipe)
  · rintro (⟨hne, hpipe, hdelim⟩ | ⟨heq, hpipe⟩)
    · exact .bare hne hpipe hdelim
    · rw [heq]
      exact .quoted hpipe

instance : DecidablePred IsToken :=
  fun _ => decidable_of_iff _ isToken_iff.symm

instance : DecidablePred Style.standard.token :=
  inferInstanceAs (DecidablePred IsToken)

instance : DecidablePred Style.clear.token :=
  fun cs => inferInstanceAs (Decidable (IsToken cs ∧ ¬ Marked cs))

def startsBlank (cs : List Char) : Bool :=
  cs.head?.any isBlank

/-- A text is its blanks in front and what is left behind them. -/
theorem exists_blanks (cs : List Char) :
    ∃ blanks, cs = blanks ++ trimStart cs ∧ ∀ c ∈ blanks, isBlank c = true :=
  ⟨cs.takeWhile isBlank, List.takeWhile_append_dropWhile.symm,
    fun _ hc => List.mem_takeWhile_imp hc⟩

section

variable (style : Style) [DecidablePred style.token]

mutual

/-- What stands behind a tree in a text that starts with it. -/
def behind? : TokenTree → List Char → Option (List Char)
  | leaf token, cs =>
    if token ≠ [] ∧ style.token token ∧ token.isPrefixOf cs then some (cs.drop token.length)
    else none
  | node items, cs =>
    match cs with
    | '(' :: inside =>
      if style.tight (node items) && startsBlank inside then none
      else
        match behindAll? items inside with
        | some (')' :: rest) => some rest
        | _ => none
    | _ => none

/-- What stands behind some trees and the blanks around them in a text that starts with these. -/
def behindAll? : List TokenTree → List Char → Option (List Char)
  | [], cs => some (trimStart cs)
  | t :: ts, cs =>
    (behind? t (trimStart cs)).bind fun rest =>
      if style.apart t && ts.head?.any style.apart && !startsBlank rest then none
      else behindAll? ts rest

end

variable {style}

mutual

/-- What `behind?` passes is the text of the tree. -/
theorem holds_of_behind? (t : TokenTree) {cs rest : List Char}
    (h : behind? style t cs = some rest) :
    ∃ own, cs = own ++ rest ∧ own ≠ [] ∧ Holds style t own := by
  match t with
  | leaf token =>
    rw [behind?] at h
    split at h
    · next htoken =>
      cases h
      obtain ⟨more, rfl⟩ := List.isPrefixOf_iff_prefix.1 htoken.2.2
      exact ⟨token, by simp, htoken.1, rfl, htoken.2.1⟩
    · cases h
  | node items =>
    rw [behind?.eq_def] at h
    dsimp only at h
    split at h
    · next inside =>
      split at h
      · cases h
      · next htight =>
        split at h
        · next left hleft =>
          cases h
          obtain ⟨own, rfl, hitems, -⟩ := laid_of_behindAll? items hleft
          -- where the style asks for it, no blank stands behind the parenthesis
          refine ⟨'(' :: own ++ [')'], by simp, nofun, own, rfl, hitems, fun h c hc => ?_⟩
          obtain ⟨own', rfl⟩ := List.head?_eq_some_iff.1 hc
          simpa [h, startsBlank] using htight
        · cases h
    · cases h

/-- What `behindAll?` passes is a text of the trees. -/
theorem laid_of_behindAll? (ts : List TokenTree) {cs rest : List Char}
    (h : behindAll? style ts cs = some rest) :
    ∃ own, cs = own ++ rest ∧ Laid style ts own ∧ (ts ≠ [] → own ≠ []) := by
  match ts with
  | [] =>
    cases h
    obtain ⟨blanks, heq, hblanks⟩ := exists_blanks cs
    exact ⟨blanks, heq, by simpa using Laid.nil.blanks hblanks, nofun⟩
  | t :: ts =>
    rw [behindAll?] at h
    obtain ⟨more, hmore, h⟩ := Option.bind_eq_some_iff.1 h
    obtain ⟨blanks, heq, hblanks⟩ := exists_blanks cs
    obtain ⟨own, hown, hne, hholds⟩ := holds_of_behind? t hmore
    split at h
    · cases h
    · next hparted =>
      obtain ⟨others, rfl, hothers, hne'⟩ := laid_of_behindAll? ts h
      refine ⟨blanks ++ (own ++ others), by rw [heq, hown]; simp, ?_, by simp [hne]⟩
      refine Laid.blanks hblanks (.cons hholds hothers fun hapart t' ht' hapart' => ?_)
      -- the others are not empty, so the blank that was looked for is theirs
      obtain ⟨ts', rfl⟩ := List.head?_eq_some_iff.1 ht'
      obtain ⟨c, others', rfl⟩ := List.exists_cons_of_ne_nil (hne' nofun)
      exact ⟨c, rfl, by simpa [hapart, hapart', startsBlank] using hparted⟩

end

/-- A text that passes the check holds the trees. -/
theorem laid_of_check {ts : List TokenTree} {cs : List Char}
    (h : behindAll? style ts cs = some []) :
    Laid style ts cs := by
  obtain ⟨own, rfl, hlaid, -⟩ := laid_of_behindAll? ts h
  rwa [List.append_nil]

end

end TokenTree

end Interpolants
