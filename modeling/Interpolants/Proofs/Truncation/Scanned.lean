import Interpolants.Proofs.Decoding.Placeholders
import Interpolants.Proofs.Decoding.Unseen

/-!
# Interpolants — texts whose pipes stand around symbols

The search for a closing parenthesis and the reading of tokens both look at pipes, and not in the
same way: the one counts them wherever they are, the other only minds those at the start of a token.
In a `Delimited` text the two agree. So that they still agree after a cut anywhere, and after rounds
that put placeholders in, the working notion is wider: `Scanned`.

## The architecture

* **`Delimited.scanned`** — whatever a delimited text is cut down to is scanned.
* **`Scanned.of_splitAtLet`**, **`Scanned.of_closing`** — what a round leaves of a scanned text is
  scanned.
* **`Leads`** — a piece that the search for a closing parenthesis either ends in or comes out of, at
  some depth and between no pipes.
* **`Scanned.of_takeWhile`**, **`Scanned.infix_of_takeWhile`** — a bare token of a scanned text
  holds no pipe, unless a placeholder runs into a quoted symbol.
-/

namespace Interpolants

open Text

/-- Pipes stand in the text only around quoted symbols, each behind a blank, a parenthesis or the
start of the text and none with the start of a let block in it. `opens` says whether such a symbol
may start here. -/
inductive Delimited : Bool → List Char → Prop where
  | nil {opens : Bool} : Delimited opens []
  | char {opens : Bool} {c : Char} {cs : List Char} (hc : c ≠ '|')
      (h : Delimited (isDelimiter c) cs) : Delimited opens (c :: cs)
  | symbol {content cs : List Char} (hpipe : '|' ∉ content)
      (hmark : ¬ "(let".toList <:+: content) (h : Delimited false cs) :
      Delimited true ('|' :: content ++ '|' :: cs)

/-- What is left of a delimited text when it is cut and when let blocks are replaced: it may end
inside a quoted symbol, and a placeholder may stand before anything that may stand behind a
parenthesis. -/
inductive Scanned : Bool → List Char → Prop where
  | nil {opens : Bool} : Scanned opens []
  | char {opens : Bool} {c : Char} {cs : List Char} (hc : c ≠ '|')
      (h : Scanned (isDelimiter c) cs) : Scanned opens (c :: cs)
  | symbol {content cs : List Char} (hpipe : '|' ∉ content) (hmark : ¬ Marked content)
      (h : Scanned false cs) : Scanned true ('|' :: content ++ '|' :: cs)
  | cut {content : List Char} (hpipe : '|' ∉ content) (hmark : ¬ Marked content) :
      Scanned true ('|' :: content)
  | key {opens : Bool} (n : Nat) {cs : List Char} (h : Scanned true cs) :
      Scanned opens ("#let".toList ++ Decimal.digits n ++ cs)

/-! ## Cutting a text -/

namespace Delimited

variable {opens : Bool} {cs : List Char}

/-- A text without pipes is delimited. -/
theorem of_not_mem (h : '|' ∉ cs) : Delimited opens cs := by
  induction cs generalizing opens with
  | nil => exact .nil
  | cons c cs ih =>
    rw [List.mem_cons, not_or] at h
    exact .char (Ne.symm h.1) (ih h.2)

/-- Behind a piece without pipes that ends with a delimiter a symbol may start. -/
theorem prepend {front : List Char} {c : Char} (hfront : '|' ∉ front) (hc : isDelimiter c = true)
    (h : Delimited true cs) : Delimited opens (front ++ c :: cs) := by
  induction front generalizing opens with
  | nil =>
    rw [← hc] at h
    refine .char ?_ h
    rintro rfl
    exact absurd hc (by decide)
  | cons c' front ih =>
    rw [List.mem_cons, not_or] at hfront
    exact .char (Ne.symm hfront.1) (ih hfront.2)

theorem not_marked {content : List Char} (h : ¬ "(let".toList <:+: content) : ¬ Marked content := by
  rintro ⟨before, c, after, rfl, -⟩
  exact h ⟨before, c :: after, by simp⟩

/-- **A delimited text may be cut anywhere.** -/
theorem scanned {front back : List Char} (h : Delimited opens (front ++ back)) :
    Scanned opens front := by
  generalize htext : front ++ back = text at h
  induction h generalizing front with
  | nil =>
    rw [List.append_eq_nil_iff.1 htext |>.1]
    exact .nil
  | @char opens c cs hc h ih =>
    cases front with
    | nil => exact .nil
    | cons c' front =>
      rw [List.cons_append, List.cons.injEq] at htext
      obtain ⟨rfl, htext⟩ := htext
      exact .char hc (ih htext)
  | @symbol content cs hpipe hmark h ih =>
    cases front with
    | nil => exact .nil
    | cons c' front =>
      rw [List.cons_append, List.cons_append, List.cons.injEq] at htext
      obtain ⟨rfl, htext⟩ := htext
      rcases List.append_eq_append_iff.1 htext with ⟨more, rfl, -⟩ | ⟨more, rfl, hmore⟩
      · -- the cut falls between the pipes
        have hwithin : front <:+: front ++ more := (List.prefix_append front more).isInfix
        exact .cut (fun hmem => hpipe (hwithin.subset hmem))
          (fun hmarked => not_marked hmark (hmarked.of_infix hwithin))
      · cases more with
        -- the cut falls in front of the second pipe, or behind it
        | nil =>
          rw [List.append_nil]
          exact .cut hpipe (not_marked hmark)
        | cons c more =>
          rw [List.cons_append, List.cons.injEq] at hmore
          obtain ⟨rfl, hmore⟩ := hmore
          exact .symbol hpipe (not_marked hmark) (ih hmore.symm)

end Delimited

/-! ## Placeholders -/

/-- No placeholder is written with delimiters or pipes. -/
theorem plain_key {n : Nat} {c : Char} (hc : c ∈ "#let".toList ++ Decimal.digits n) :
    isDelimiter c = false ∧ c ≠ '|' := by
  have hword : ∀ c ∈ "#let".toList, isDelimiter c = false ∧ c ≠ '|' := forall_mem_of_all (by decide)
  rcases List.mem_append.1 hc with hc | hc
  · exact hword c hc
  · have hdigit : c.isDigit = true := List.all_eq_true.1 (Decimal.isNumeral_digits n) c hc
    refine ⟨isDelimiter_of_isDigit hdigit, ?_⟩
    rintro rfl
    exact absurd hdigit (by decide)

/-- A placeholder is read in one piece. -/
theorem tokenForm_key (n : Nat) : TokenForm ("#let".toList ++ Decimal.digits n) :=
  .bare (by simp) (fun hmem => (plain_key hmem).2 rfl) fun _ hc => (plain_key hc).1

/-- A placeholder is the start of a token. -/
theorem takeWhile_key (n : Nat) (cs : List Char) :
    ("#let".toList ++ Decimal.digits n ++ cs).takeWhile (fun c => !isDelimiter c)
      = "#let".toList ++ Decimal.digits n ++ cs.takeWhile (fun c => !isDelimiter c) :=
  List.takeWhile_append_of_pos fun c hc => by rw [(plain_key hc).1]; rfl

/-- A token goes on behind a placeholder at its start. -/
theorem dropWhile_key (n : Nat) (cs : List Char) :
    ("#let".toList ++ Decimal.digits n ++ cs).dropWhile (fun c => !isDelimiter c)
      = cs.dropWhile (fun c => !isDelimiter c) :=
  List.dropWhile_append_of_pos fun c hc => by rw [(plain_key hc).1]; rfl

namespace Scanned

variable {opens : Bool} {cs : List Char}

/-- Where no symbol may start, less is required of what one may start before. -/
theorem loosen (h : Scanned opens cs) : Scanned true cs := by
  cases h with
  | nil => exact .nil
  | char hc h => exact .char hc h
  | symbol hpipe hmark h => exact .symbol hpipe hmark h
  | cut hpipe hmark => exact .cut hpipe hmark
  | key n h => exact .key n h

/-- If no pipe comes next, it does not matter whether a symbol may start here. -/
theorem strict (h : Scanned opens cs) (hhead : cs.head? ≠ some '|') : Scanned false cs := by
  cases h with
  | nil => exact .nil
  | char hc h => exact .char hc h
  | symbol => exact absurd rfl hhead
  | cut => exact absurd rfl hhead
  | key n h => exact .key n h

/-- A symbol may start behind a delimiter. -/
theorem tail {c : Char} (h : Scanned opens (c :: cs)) (hc : isDelimiter c = true) :
    Scanned true cs := by
  generalize htext : c :: cs = text at h
  cases h with
  | nil => cases htext
  | char _ h =>
    cases htext
    rwa [hc] at h
  | symbol =>
    cases htext
    exact absurd hc (by decide)
  | cut =>
    cases htext
    exact absurd hc (by decide)
  | key n =>
    cases htext
    exact absurd hc (by decide)

/-! ## Tokens -/

/-- A symbol runs from its opening pipe to the next one. -/
theorem exists_symbol (h : Scanned opens ('|' :: cs)) (hclosed : '|' ∈ cs) :
    ∃ content rest, cs = content ++ '|' :: rest ∧ '|' ∉ content ∧ Scanned true rest := by
  generalize htext : '|' :: cs = text at h
  cases h with
  | nil => cases htext
  | char hc =>
    cases htext
    exact absurd rfl hc
  | @symbol content rest hpipe hmark h =>
    cases htext
    exact ⟨content, rest, rfl, hpipe, h.loosen⟩
  | cut hpipe =>
    cases htext
    exact absurd hclosed hpipe
  | key => cases htext

/-- Behind a bare token without pipes a symbol may start. -/
theorem of_takeWhile (h : Scanned opens cs) (htoken : '|' ∉ cs.takeWhile fun c => !isDelimiter c) :
    Scanned true (cs.dropWhile fun c => !isDelimiter c) := by
  induction h with
  | nil => exact .nil
  | @char opens c cs hc h ih =>
    rw [List.takeWhile_cons] at htoken
    rw [List.dropWhile_cons]
    split
    · next hdelim =>
      rw [if_pos hdelim, List.mem_cons, not_or] at htoken
      exact ih htoken.2
    · exact .char hc h
  | symbol | cut => exact absurd (by simp [show isDelimiter '|' = false by decide]) htoken
  | @key opens n cs h ih =>
    rw [takeWhile_key, List.mem_append, not_or] at htoken
    rw [dropWhile_key]
    exact ih htoken.2

/-- A pipe gets into a bare token only behind a placeholder. -/
theorem infix_of_takeWhile (h : Scanned false cs)
    (htoken : '|' ∈ cs.takeWhile fun c => !isDelimiter c) :
    "#let".toList <:+: cs.takeWhile fun c => !isDelimiter c := by
  generalize hopens : false = opens at h
  induction h with
  | nil => cases htoken
  | @char opens c cs hc h ih =>
    rw [List.takeWhile_cons] at htoken ⊢
    split at htoken
    · next hdelim =>
      have hinside := (List.mem_cons.1 htoken).resolve_left (Ne.symm hc)
      rw [if_pos hdelim]
      exact (ih hinside (by simpa using hdelim)).trans (List.suffix_cons c _).isInfix
    · cases htoken
  | symbol | cut => cases hopens
  | @key opens n cs h ih =>
    rw [takeWhile_key, List.append_assoc]
    exact (List.prefix_append _ _).isInfix

end Scanned

/-! ## Let blocks and parentheses -/

/-- A piece that the search for a closing parenthesis either ends in, or comes out of at some
depth. -/
def Leads (piece : List Char) : Prop :=
  ∀ depth, 1 ≤ depth →
    (∃ inside more, piece = inside ++ more ∧
      ∀ rest, closing depth false (piece ++ rest) = some (inside, more ++ rest)) ∨
    ∃ depth', 1 ≤ depth' ∧ ∀ rest, closing depth false (piece ++ rest)
      = (closing depth' false rest).map fun split => (piece ++ split.1, split.2)

namespace Leads

variable {piece piece' : List Char}

theorem of_balanced (h : Balanced piece) : Leads piece :=
  fun depth hdepth => .inr ⟨depth, hdepth, h depth hdepth⟩

/-- A piece that leads the search behind one that does leads it too. -/
theorem append (h : Leads piece) (h' : Leads piece') : Leads (piece ++ piece') := by
  intro depth hdepth
  rcases h depth hdepth with ⟨inside, more, rfl, hends⟩ | ⟨depth₁, hdepth₁, hpasses⟩
  · refine .inl ⟨inside, more ++ piece', by simp, fun rest => ?_⟩
    rw [List.append_assoc, hends, List.append_assoc]
  · rcases h' depth₁ hdepth₁ with ⟨inside, more, rfl, hends⟩ | ⟨depth₂, hdepth₂, hpasses'⟩
    · refine .inl ⟨piece ++ inside, more, by simp, fun rest => ?_⟩
      rw [List.append_assoc, hpasses, hends]
      rfl
    · refine .inr ⟨depth₂, hdepth₂, fun rest => ?_⟩
      rw [List.append_assoc, hpasses, hpasses', map_before_map_before]

/-- A character that is no pipe leads the search. -/
theorem singleton {c : Char} (hc : c ≠ '|') : Leads [c] := by
  by_cases hopen : c = '('
  · subst hopen
    exact fun depth _ => .inr ⟨depth + 1, by omega, fun rest => closing_open rest⟩
  by_cases hclose : c = ')'
  · subst hclose
    intro depth hdepth
    by_cases hlast : depth ≤ 1
    · exact .inl ⟨[')'], [], rfl, fun rest => closing_last hlast rest⟩
    · exact .inr ⟨depth - 1, by omega, fun rest => closing_close (by omega) rest⟩
  · refine of_balanced (Balanced.of_plain fun c' hc' => ?_)
    rw [List.mem_singleton.1 hc']
    exact ⟨hopen, hclose, hc⟩

end Leads

/-- What closes some parentheses closes them also where more are open. -/
theorem closing_add {depth : Nat} {quoted : Bool} {cs inside rest : List Char} (hdepth : 1 ≤ depth)
    (h : closing depth quoted cs = some (inside, rest)) {more : Nat} (hmore : 1 ≤ more)
    (behind : List Char) :
    closing (depth + more) quoted (inside ++ behind)
      = (closing more false behind).map fun split => (inside ++ split.1, split.2) := by
  replace h := closingRead_of_closing h
  induction h with
  | last hlast =>
    obtain rfl := Nat.le_antisymm hlast hdepth
    rw [List.singleton_append, closing_close (by omega), Nat.add_sub_cancel_left]
    rfl
  | @more depth quoted c cs inside rest hgoes _ ih =>
    -- the parenthesis that closes the last one comes later, so the depth stays positive
    have hinner := one_le_depthAfter hdepth hgoes
    have hstays : ¬ (c = ')' ∧ quoted = false ∧ depth + more ≤ 1) := by omega
    rw [List.cons_append, closing, if_neg hstays, depthAfter_add hdepth, ih hinner, Option.map_map]
    rfl

/-- The text of a let block closes all the parentheses it opens. -/
theorem balanced_of_enclosed {more found after : List Char}
    (h : enclosed ('(' :: more) = some (found, after)) : Balanced found := by
  obtain ⟨inside, rfl, hinside⟩ := exists_of_enclosed h
  intro depth hdepth rest
  rw [List.cons_append, closing_open, Nat.add_comm, closing_add (Nat.le_refl 1) hinside hdepth,
    Option.map_map]
  rfl

namespace Scanned

variable {opens : Bool} {cs : List Char}

/-- **A round splits a scanned text** before a let block, and what takes the place of the block is a
placeholder. -/
theorem of_splitAtLet {before here : List Char} (h : Scanned opens cs)
    (hsplit : splitAtLet cs = some (before, here)) :
    Scanned true here ∧ Leads before ∧ ∀ (n : Nat) (after : List Char), Scanned true after →
      Scanned opens (before ++ ("#let".toList ++ Decimal.digits n ++ after)) := by
  induction h generalizing before with
  | nil => cases hsplit
  | @char opens c cs hc h ih =>
    cases hstarts : startsLet (c :: cs) with
    | true =>
      rw [splitAtLet_of_startsLet hstarts] at hsplit
      cases hsplit
      -- the block starts here, and a placeholder may stand in its place
      exact ⟨.char hc h, .of_balanced .nil, fun n after hafter => .key n hafter⟩
    | false =>
      obtain ⟨front, rfl, hcut⟩ := exists_of_splitAtLet_cons hstarts hsplit
      obtain ⟨hhere, hleads, hafter⟩ := ih hcut
      exact ⟨hhere, (Leads.singleton hc).append hleads,
        fun n after h => .char hc (hafter n after h)⟩
  | @symbol content cs hpipe hmark h ih =>
    -- no block starts between the pipes
    have hsealed : Sealed ('|' :: content ++ ['|']) := (Sealed.quoted hmark).cons_of_ne (by decide)
    rw [List.append_cons] at hsplit
    obtain ⟨front, rfl, hcut⟩ := hsealed.exists_of_splitAtLet hsplit
    obtain ⟨hhere, hleads, hafter⟩ := ih hcut
    refine ⟨hhere, (Leads.of_balanced (.quoted hpipe)).append hleads, fun n after h => ?_⟩
    have := Scanned.symbol hpipe hmark (hafter n after h)
    simpa using this
  | @cut content hpipe hmark =>
    -- a symbol that is cut off is the end of the text, and no block starts in it
    rw [splitAtLet_cons (startsLet_of_ne (by decide) content),
      splitAtLet_of_not_marked hmark] at hsplit
    cases hsplit
  | @key opens n cs h ih =>
    have hsealed : Sealed ("#let".toList ++ Decimal.digits n) :=
      .of_not_mem fun hmem => absurd (plain_key hmem).1 (by decide)
    obtain ⟨front, rfl, hcut⟩ := hsealed.exists_of_splitAtLet hsplit
    obtain ⟨hhere, hleads, hafter⟩ := ih hcut
    refine ⟨hhere, (Leads.of_balanced (tokenForm_key n).balanced).append hleads,
      fun m after h => ?_⟩
    rw [List.append_assoc]
    exact .key n (hafter m after h)

/-- Nothing is closed between pipes. -/
theorem closing_cut {content : List Char} (hpipe : '|' ∉ content) (depth : Nat) :
    closing depth false ('|' :: content) = none := by
  have hquoted := closing_quoted hpipe depth []
  rw [List.append_nil] at hquoted
  rw [closing, if_neg (by simp), if_pos rfl, depthAfter, if_neg (by decide), if_neg (by decide),
    if_neg (by decide), Bool.not_false, hquoted]
  rfl

/-- Behind a closing parenthesis a symbol may start. -/
theorem of_closing {depth : Nat} {inside rest : List Char} (h : Scanned opens cs)
    (hdepth : 1 ≤ depth) (hclosing : closing depth false cs = some (inside, rest)) :
    Scanned true rest := by
  induction h generalizing depth inside with
  | nil => cases hclosing
  | @char opens c cs hc h ih =>
    by_cases hopen : c = '('
    · subst hopen
      obtain ⟨more, -, hmore⟩ := exists_of_closing_open hclosing
      exact ih (by omega) hmore
    by_cases hclose : c = ')'
    · subst hclose
      obtain ⟨-, rfl⟩ | ⟨hmany, more, -, hmore⟩ := exists_of_closing_close hclosing
      · exact h
      · exact ih (by omega) hmore
    · have hplain : Balanced [c] := Balanced.of_plain fun c' hc' => by
        rw [List.mem_singleton.1 hc']
        exact ⟨hopen, hclose, hc⟩
      obtain ⟨more, -, hmore⟩ := hplain.exists_of_closing hdepth hclosing
      exact ih hdepth hmore
  | @symbol content cs hpipe hmark h ih =>
    rw [List.append_cons] at hclosing
    obtain ⟨more, -, hmore⟩ := (Balanced.quoted hpipe).exists_of_closing hdepth hclosing
    exact ih hdepth hmore
  | @cut content hpipe hmark =>
    -- behind a pipe that is not closed no parenthesis counts
    rw [closing_cut hpipe] at hclosing
    cases hclosing
  | @key opens n cs h ih =>
    obtain ⟨more, -, hmore⟩ := (tokenForm_key n).balanced.exists_of_closing hdepth hclosing
    exact ih hdepth hmore

end Scanned

end Interpolants
