import Interpolants.Proofs.Decoding.Pieces
import Interpolants.Proofs.Decoding.Reading
import Interpolants.Proofs.Offsets.Term
import Mathlib.Algebra.Group.Nat.Even

/-!
# Interpolants — where a term ends

The end of a term is found in two ways. The second pass reads the term, token by token; what a name
is bound to is skipped, by counting parentheses. In a text whose pipes only quote symbols
(`PipesQuote`) both stop at the same place, whatever is known of the names.

## The architecture

* **`piecewise_pipesQuote`** — in such a text tokens are read in one piece, so that `Piecewise`
  applies.
* **`closedAtEnd_of_enclosed`** — what the search for a closing parenthesis cuts off ends at the
  first place at which as many parentheses have been closed as opened.
* **`span_of_term`** — the headline, for cursors and for byte offsets.
-/

namespace Interpolants

open Text

/-! ## Texts whose pipes quote symbols -/

/-- Every pipe that opens a quoted symbol, one with an even number of pipes before it, stands behind
a blank, a parenthesis or the start of the text. -/
def PipesQuote (text : List Char) : Prop :=
  ∀ before after, text = before ++ '|' :: after → Even (before.count '|') →
    ∀ c ∈ before.getLast?, isDelimiter c = true

/-- Whether pipes quote can be told position by position. -/
theorem pipesQuote_iff {text : List Char} :
    PipesQuote text ↔ ∀ i < text.length, text[i]? = some '|' →
    Even ((text.take i).count '|') → (text.take i).getLast?.all isDelimiter = true := by
  constructor
  · intro h i hi hpipe heven
    obtain ⟨_, hget⟩ := List.getElem?_eq_some_iff.1 hpipe
    have hlast := h (text.take i) (text.drop (i + 1))
      (by rw [← hget, List.getElem_cons_drop, List.take_append_drop]) heven
    rwa [Option.all_eq_true]
  · rintro h before after rfl heven
    have hbefore := h before.length (by simp) (by simp)
    rw [List.take_left, Option.all_eq_true] at hbefore
    exact hbefore heven

/-- Only the characters of the text are looked at, and not all that there are. -/
instance : DecidablePred PipesQuote :=
  fun _ => decidable_of_iff _ pipesQuote_iff.symm

/-- From a place outside quoted symbols on, the pipes quote symbols too. -/
theorem PipesQuote.of_append {front rest : List Char} (h : PipesQuote (front ++ rest))
    (hfront : Even (front.count '|')) : PipesQuote rest := by
  rintro before after rfl hbefore c hc
  refine h (front ++ before) after (List.append_assoc ..).symm ?_ c ?_
  · rw [List.count_append]
    exact hfront.add hbefore
  · rw [List.getLast?_append, Option.mem_def.1 hc]
    rfl

theorem even_count_of_not_mem {cs : List Char} (h : '|' ∉ cs) : Even (cs.count '|') := by
  rw [List.count_eq_zero.2 h]
  exact Even.zero

/-- **Where pipes only quote symbols, tokens are read in one piece.** None is torn. -/
theorem piecewise_pipesQuote : Piecewise PipesQuote fun _ => False where
  tail := by
    intro c cs h hc
    refine @PipesQuote.of_append [c] cs h (even_count_of_not_mem fun hmem => ?_)
    rw [← List.mem_singleton.1 hmem] at hc
    exact absurd hc (by decide)
  symbol := by
    intro quoted h hclosed
    obtain ⟨content, rest, rfl, hpipe⟩ := List.eq_append_cons_of_mem hclosed
    refine ⟨content, rest, rfl, hpipe, ?_⟩
    rw [show '|' :: (content ++ '|' :: rest) = '|' :: content ++ ['|'] ++ rest by simp] at h
    refine h.of_append ?_
    have hcount : ('|' :: content ++ ['|']).count '|' = 2 := by simp [List.count_eq_zero.2 hpipe]
    rw [hcount]
    decide
  bare := by
    intro cs h hhead _
    have happend := List.takeWhile_append_dropWhile (p := fun c => !isDelimiter c) (l := cs)
    have hpipe : '|' ∉ cs.takeWhile fun c => !isDelimiter c := by
      intro hmem
      obtain ⟨front, more, htoken, hfront⟩ := List.eq_append_cons_of_mem hmem
      cases hlast : front.getLast? with
      | none =>
        obtain rfl := List.getLast?_eq_none_iff.1 hlast
        rw [← happend, htoken] at hhead
        exact hhead rfl
      | some c =>
        -- the pipe would stand behind a character of the token
        have hdelim := h front (more ++ cs.dropWhile fun c => !isDelimiter c)
          (by rw [← List.cons_append, ← List.append_assoc, ← htoken, happend])
          (even_count_of_not_mem hfront) c hlast
        have hc : c ∈ cs.takeWhile fun c => !isDelimiter c := by
          rw [htoken]
          exact List.mem_append_left _ (List.mem_of_getLast? hlast)
        have hplain := List.mem_takeWhile_imp hc
        rw [hdelim] at hplain
        cases hplain
    refine ⟨hpipe, ?_⟩
    rw [← happend] at h
    exact h.of_append (even_count_of_not_mem hpipe)
  pipe := False.elim

/-! ## Counting parentheses -/

/-- The characters of a text that stand between no pipes. `quoted` says whether an odd number of
pipes has come by. -/
def unquoted (quoted : Bool) : List Char → List Char
  | [] => []
  | c :: cs =>
    if c = '|' then unquoted (!quoted) cs
    else if quoted then unquoted quoted cs
    else c :: unquoted quoted cs

/-- A text in parentheses that ends at the first place at which as many of them have been closed as
opened, those between pipes aside. -/
structure ClosedAtEnd (taken : List Char) : Prop where
  parens : ∃ inside, taken = '(' :: inside ++ [')']
  count_eq : (unquoted false taken).count '(' = (unquoted false taken).count ')'
  count_lt : ∀ front back, taken = front ++ back → front ≠ [] → back ≠ [] →
    (unquoted false front).count ')' < (unquoted false front).count '('

/-- A character changes the depth by what it adds to the two counts. -/
theorem count_unquoted_cons {depth : Nat} (hdepth : 1 ≤ depth) (quoted : Bool) (c : Char)
    (cs : List Char) :
    (unquoted quoted (c :: cs)).count '(' + depth
        + (unquoted (if c = '|' then !quoted else quoted) cs).count ')'
      = (unquoted quoted (c :: cs)).count ')' + depthAfter depth quoted c
        + (unquoted (if c = '|' then !quoted else quoted) cs).count '(' := by
  rw [unquoted, depthAfter]
  by_cases hpipe : c = '|'
  · subst hpipe
    cases quoted <;> simp <;> omega
  rw [if_neg hpipe, if_neg hpipe]
  -- between pipes nothing counts, and else each parenthesis changes the depth by one
  cases quoted with
  | true =>
    rw [if_pos rfl, if_pos rfl]
    omega
  | false =>
    rw [if_neg Bool.false_ne_true, if_neg Bool.false_ne_true]
    by_cases hopen : c = '('
    · subst hopen
      simp
      omega
    by_cases hclose : c = ')'
    · subst hclose
      simp
      omega
    · simp [hopen, hclose]
      omega

/-- What stands before the closing parenthesis closes all that is open, and no shorter piece of it
does. -/
theorem count_of_closing {depth : Nat} {quoted : Bool} {cs inside rest : List Char}
    (hdepth : 1 ≤ depth) (h : closing depth quoted cs = some (inside, rest)) :
    (unquoted quoted inside).count '(' + depth = (unquoted quoted inside).count ')' ∧
      ∀ front back, inside = front ++ back → back ≠ [] →
        (unquoted quoted front).count ')' < (unquoted quoted front).count '(' + depth := by
  replace h := closingRead_of_closing h
  induction h with
  | last hlast =>
    obtain rfl := Nat.le_antisymm hlast hdepth
    refine ⟨by decide, fun front back heq hback => ?_⟩
    obtain ⟨rfl, -⟩ := (List.singleton_eq_append_iff.1 heq).resolve_right fun h => hback h.2
    exact Nat.zero_lt_one
  | @more depth quoted c cs inside rest hgoes _ ih =>
    obtain ⟨hcount, hfirst⟩ := ih (one_le_depthAfter hdepth hgoes)
    refine ⟨?_, fun front back heq hback => ?_⟩
    · have hstep := count_unquoted_cons hdepth quoted c inside
      omega
    · cases front with
      | nil => exact Nat.zero_lt_of_lt (Nat.lt_of_lt_of_le hdepth (Nat.le_add_left _ _))
      | cons c' front =>
        obtain ⟨rfl, hfront⟩ := List.cons.inj heq
        -- one character of the piece, and then what the rest of it counts
        have hstep := count_unquoted_cons hdepth quoted c front
        have hless := hfirst front back hfront hback
        omega

/-- **What the search for a closing parenthesis cuts off** is closed at its end, and nowhere
before. -/
theorem closedAtEnd_of_enclosed {more taken after : List Char}
    (h : enclosed ('(' :: more) = some (taken, after)) : ClosedAtEnd taken := by
  obtain ⟨inside, rfl, hinside⟩ := exists_of_enclosed h
  obtain ⟨hcount, hfirst⟩ := count_of_closing (Nat.le_refl 1) hinside
  have hopen : ∀ cs, unquoted false ('(' :: cs) = '(' :: unquoted false cs := fun _ => rfl
  refine ⟨?_, ?_, fun front back heq hfront hback => ?_⟩
  · obtain ⟨front, rfl⟩ := List.getLast?_eq_some_iff.1 (getLast?_of_closing hinside)
    exact ⟨front, rfl⟩
  · simpa [hopen] using hcount
  · cases front with
    | nil => exact absurd rfl hfront
    | cons c front =>
      obtain ⟨rfl, hinside⟩ := List.cons.inj heq
      simpa [hopen] using hfirst front back hinside hback

/-! ## The least signed word -/

/-- A piece of text without parentheses. -/
def Parenless (piece : List Char) : Prop :=
  ∀ c ∈ piece, c ≠ '(' ∧ c ≠ ')'

theorem Parenless.append {piece piece' : List Char} (h : Parenless piece) (h' : Parenless piece') :
    Parenless (piece ++ piece') :=
  List.forall_mem_append.2 ⟨h, h'⟩

section

variable {c c' : Cursor} {token more : List Char} {names : Names} {e : Expr}

/-- Blanks in front of what is read have no parentheses. -/
theorem exists_blanks (c : Cursor) : ∃ blanks, Parenless blanks ∧
    c.rest = blanks ++ trimStart c.rest := by
  refine ⟨c.rest.takeWhile isBlank, fun ch hch => ?_, List.takeWhile_append_dropWhile.symm⟩
  have hblank := List.mem_takeWhile_imp hch
  constructor <;> rintro rfl <;> exact absurd hblank (by decide)

/-- A token without parentheses is taken with blanks in front of it. -/
theorem exists_parenless_of_token (h : c.token = .ok (token, c')) (htoken : Parenless token) :
    ∃ piece, Parenless piece ∧ c.rest = piece ++ c'.rest := by
  obtain ⟨blanks, hblanks, hrest⟩ := exists_blanks c
  refine ⟨blanks ++ token, hblanks.append htoken, ?_⟩
  rw [hrest, ← Cursor.append_of_token h, List.append_assoc]

/-- The magnitude of the least signed word is read up to the next parenthesis. -/
theorem exists_parenless_of_leastWord? (h : c.leastWord? = some c') :
    ∃ piece, Parenless piece ∧ c.rest = piece ++ ')' :: c'.rest := by
  obtain ⟨token, behind, htoken, hnumeral, heat⟩ := exists_numeral_of_leastWord? h
  have hdigits : Parenless token := by
    intro ch hch
    have hdigit := List.all_eq_true.1 hnumeral ch hch
    constructor <;> rintro rfl <;> exact absurd hdigit (by decide)
  obtain ⟨piece, hpiece, hrest⟩ := exists_parenless_of_token htoken hdigits
  obtain ⟨blanks, hblanks, hbehind⟩ := exists_blanks behind
  refine ⟨piece ++ blanks, hpiece.append hblanks, ?_⟩
  rw [hrest, hbehind, Cursor.rest_of_eat? heat, List.append_assoc]

/-- Where the magnitude of the least signed word stands behind a minus sign, it is the term. -/
theorem term_of_leastWord? {depth : Nat} {behind : Cursor} (hopen : trimStart c.rest = '(' :: more)
    (htoken : (c.goTo more).token = .ok (['-'], behind)) (hleast : behind.leastWord? = some c') :
    term names (depth + 1) c = .ok (.integer Int64.minValue, c') := by
  rw [term_open hopen]
  refine except_bind_eq_ok_iff.2 ⟨_, htoken, ?_⟩
  dsimp only
  rw [if_pos rfl, hleast]
  rfl

end

/-! ## Reading and skipping -/

section

variable {names : Names} {depth : Nat} {c c' : Cursor} {e : Expr}

/-- A cursor of a text is determined by what is left of it. -/
theorem goTo_rest_of_text_eq (h : c'.text = c.text) : c.goTo c'.rest = c' := by
  rw [Cursor.goTo, ← h]

/-- What is read as a term is skipped, and a term in parentheses is cut off behind the closing
one. -/
theorem exists_span_of_term (hpipes : PipesQuote c.rest)
    (hterm : term names depth c = .ok (e, c')) :
    ∃ taken, c.span = .ok (taken, c') ∧
      ∀ more, trimStart c.rest = '(' :: more → enclosed ('(' :: more) = some (taken, c'.rest) := by
  have hgoTo := goTo_rest_of_text_eq (advances_of_term hterm).text
  by_cases hhead : (trimStart c.rest).head? = some '('
  · obtain ⟨more, hopen⟩ := List.head?_eq_some_iff.1 hhead
    -- reading and cutting out the list come to the same end
    obtain ⟨piece, hcut, -⟩ :=
      piecewise_pipesQuote.enclosed_of_term (fun _ _ => False.elim) hpipes hopen hterm
    have hspan := Cursor.span_of_some hopen hcut
    rw [hgoTo] at hspan
    refine ⟨_, hspan, fun more' hopen' => ?_⟩
    rw [← hopen', hopen]
    exact hcut
  · cases depth with
    | zero => cases hterm
    | succ depth =>
      cases termRead_of_term hterm with
      | leaf hhead htoken =>
        refine ⟨_, (Cursor.span_of_ne hhead).trans htoken, fun more hopen => ?_⟩
        rw [hopen] at hhead
        exact absurd rfl hhead
      | leastWord hopen | application hopen => exact absurd (by rw [hopen]; rfl) hhead

/-- The least signed word is cut off at the first closing parenthesis. -/
theorem exists_parenless_of_term {more taken : List Char} {behind stop : Cursor}
    (hterm : term names depth c = .ok (e, c')) (hopen : trimStart c.rest = '(' :: more)
    (hcut : enclosed ('(' :: more) = some (taken, c'.rest))
    (htoken : (c.goTo more).token = .ok (['-'], behind)) (hleast : behind.leastWord? = some stop) :
    e = .integer Int64.minValue ∧ stop = c' ∧ ∃ inside, Parenless inside ∧
    taken = '(' :: inside ++ [')'] := by
  cases depth with
  | zero => cases hterm
  | succ depth =>
    rw [term_of_leastWord? hopen htoken hleast] at hterm
    cases hterm
    refine ⟨rfl, rfl, ?_⟩
    obtain ⟨front, hfront, hmore⟩ := exists_parenless_of_token htoken (by simp [Parenless])
    obtain ⟨piece, hpiece, hrest⟩ := exists_parenless_of_leastWord? hleast
    refine ⟨front ++ piece, hfront.append hpiece, ?_⟩
    -- the text has no other parenthesis, so it ends where the word does
    have happend := append_of_closing hcut
    rw [Cursor.goTo_rest] at hmore
    refine List.append_cancel_right (happend.trans ?_)
    rw [hmore, hrest]
    simp

end

/-- **Reading a term and skipping it stop at the same place.** In a text whose pipes only quote
symbols, let a term be read at a place outside quoted symbols, whatever is known of the names.
Skipping from there takes a piece of text and stops at the same offset, also by byte offsets. A term
in parentheses ends with the first one at which as many have been closed as opened, the one that the
search for the closing one finds. For the least signed word, whose operand is not read as a term,
that is the first closing one of all. -/
theorem span_of_term {names : Names} {depth : Nat} {before rest : List Char} {e : Expr}
    {c' : Cursor} (hpipes : PipesQuote (before ++ rest)) (houtside : Even (before.count '|'))
    (hterm : term names depth ⟨before ++ rest, rest⟩ = .ok (e, c')) :
    let c : Cursor := ⟨before ++ rest, rest⟩
    ∃ taken, c.span = .ok (taken, c') ∧
      c'.offset = c.skipBlanks.offset + Offsets.byteSize taken ∧
      (Offsets.ParensFit rest → Offsets.span c.text (Offsets.byteSize before)
        = .ok (taken, c'.offset)) ∧
      ∀ more, trimStart rest = '(' :: more →
        ClosedAtEnd taken ∧ enclosed ('(' :: more) = some (taken, c'.rest) ∧
        (Offsets.ParensFit rest → ∃ stop,
          Offsets.matchingParen c.text c.skipBlanks.offset = .ok stop ∧ stop + 1 = c'.offset) ∧
        ∀ behind stop, (c.goTo more).token = .ok (['-'], behind) → behind.leastWord? = some stop →
          e = .integer Int64.minValue ∧ stop = c' ∧
            ∃ inside, Parenless inside ∧ taken = '(' :: inside ++ [')'] := by
  intro c
  have hinside : c.Inside := List.suffix_append before rest
  have hoffset : c.offset = Offsets.byteSize before := Cursor.offset_of_append rfl
  have htext : c'.text = c.text := (advances_of_term hterm).text
  -- everything follows from where reading and cutting out end
  obtain ⟨taken, hspan, hcut⟩ := exists_span_of_term (hpipes.of_append houtside) hterm
  refine ⟨taken, hspan, ?_, fun hfits => ?_,
    fun more hopen => ⟨?_, hcut more hopen, fun hfits => ?_, ?_⟩⟩
  · exact hinside.skipBlanks.offset_of_append htext (Cursor.append_of_span hspan)
  · rw [← hoffset, Offsets.span_offset hinside hfits, hspan]
    rfl
  · exact closedAtEnd_of_enclosed (hcut more hopen)
  · obtain ⟨stop, hstop, hbehind⟩ := Offsets.matchingParen_of_some hinside.skipBlanks hopen
      (hfits.sublist (List.dropWhile_sublist _)) (hcut more hopen)
    rw [goTo_rest_of_text_eq (c := c.skipBlanks) htext] at hbehind
    exact ⟨stop, hstop, hbehind⟩
  · exact fun behind stop => exists_parenless_of_term hterm hopen (hcut more hopen)

/-- A symbol between pipes holds a parenthesis. The least signed word is read behind it, and the
equality that both stand in is read as well. -/
theorem span_of_term_leastWord :
    let before := "(= |x (| ".toList
    let rest := "(- 9223372036854775808))".toList
    let names : Names := ⟨[("x (", .integer 5)], [], .empty⟩
    (PipesQuote (before ++ rest) ∧ Even (before.count '|')) ∧
    (term names 2 ⟨before ++ rest, rest⟩ = .ok (.integer Int64.minValue, ⟨before ++ rest, [')']⟩) ∧
      ∃ taken inside, Cursor.span ⟨before ++ rest, rest⟩ = .ok (taken, ⟨before ++ rest, [')']⟩) ∧
        Offsets.span (before ++ rest) (Offsets.byteSize before)
          = .ok (taken, Cursor.offset ⟨before ++ rest, [')']⟩) ∧
        Parenless inside ∧ taken = '(' :: inside ++ [')']) ∧
    ∃ e taken, term names 2 ⟨before ++ rest, before ++ rest⟩ = .ok (e, ⟨before ++ rest, []⟩) ∧
      Cursor.span ⟨before ++ rest, before ++ rest⟩ = .ok (taken, ⟨before ++ rest, []⟩) ∧
      ClosedAtEnd taken := by
  intro before rest names
  have hpipes : PipesQuote (before ++ rest) := by decide +kernel
  have houtside : Even (before.count '|') := by decide +kernel
  have hleast : term names 2 ⟨before ++ rest, rest⟩
      = .ok (.integer Int64.minValue, ⟨before ++ rest, [')']⟩) := by decide +kernel
  have hequal : term names 2 ⟨before ++ rest, before ++ rest⟩
      = .ok (.compare .eq (.integer 5) (.integer Int64.minValue), ⟨before ++ rest, []⟩) := by
        decide +kernel
  have hfits : Offsets.ParensFit rest := by
    unfold Offsets.ParensFit
    decide +kernel
  obtain ⟨taken, hspan, -, hoffsets, hends⟩ := span_of_term hpipes houtside hleast
  obtain ⟨-, -, -, hword⟩ := hends _ rfl
  obtain ⟨-, -, inside, hinside, htaken⟩ := hword ⟨before ++ rest, " 9223372036854775808))".toList⟩
    ⟨before ++ rest, [')']⟩ (by decide +kernel) (by decide +kernel)
  obtain ⟨taken', hspan', -, -, hends'⟩ := @span_of_term names 2 [] _ _ _ hpipes Even.zero hequal
  exact ⟨⟨hpipes, houtside⟩, ⟨hleast, taken, inside, hspan, hoffsets hfits, hinside, htaken⟩,
    _, taken', hequal, hspan', (hends' _ rfl).1⟩

end Interpolants
