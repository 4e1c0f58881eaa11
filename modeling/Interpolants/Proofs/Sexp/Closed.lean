import Interpolants.Proofs.Sexp.Survival
import Interpolants.Proofs.Sexp.Unbounded

/-!
# Interpolants — closed texts

In a closed text every quote, comment and list that starts also ends. What is read of it does not
depend on what stands behind: either its s-expressions are read and reading goes on behind it, or
reading stops inside it (`Closed.settled`). Printed s-expressions are closed unless a symbol tears
open a mark or a comment (`closed_chars`).
-/

namespace Interpolants.Sexp

open Text Text.Reader

/-- Whether a character opens nothing and closes nothing. -/
def isPlain (c : Char) : Bool :=
  !"\"|;()".toList.contains c

/-- A plain character is no mark, no semicolon and no parenthesis. -/
theorem isPlain_iff {c : Char} :
    isPlain c = true ↔ c ≠ '"' ∧ c ≠ '|' ∧ c ≠ ';' ∧ c ≠ '(' ∧ c ≠ ')' := by
  simp [isPlain]

theorem isPlain_of_isSpace {c : Char} (h : isSpace c = true) : isPlain c = true := by
  simp only [isSpace, Bool.or_eq_true, beq_iff_eq] at h
  rcases h with ((rfl | rfl) | rfl) | rfl <;> decide

theorem isPlain_of_isSymbolChar {c : Char} (h : isSymbolChar c = true) : isPlain c = true := by
  refine isPlain_iff.2 ⟨?_, ?_, ?_, ?_, ?_⟩ <;> rintro rfl <;> exact absurd h (by decide)

/-- A text in which all that starts also ends: quotes, comments with their lines, and lists. -/
inductive Closed : List Char → Prop where
  | nil : Closed []
  | plain {c : Char} {cs : List Char} (h : isPlain c = true) (hcs : Closed cs) : Closed (c :: cs)
  | quoted {mark : Char} {content cs : List Char} (hmark : mark = '"' ∨ mark = '|')
      (h : mark ∉ content) (hcs : Closed cs) : Closed (mark :: (content ++ mark :: cs))
  | comment {text cs : List Char} (h : '\n' ∉ text) (hcs : Closed cs) :
    Closed (';' :: (text ++ '\n' :: cs))
  | list {inside cs : List Char} (hinside : Closed inside) (hcs : Closed cs) :
    Closed ('(' :: (inside ++ ')' :: cs))

namespace Closed

variable {c : Char} {cs rest : List Char}

/-- Of two closed texts, one behind the other is closed. -/
theorem append (h : Closed cs) (hrest : Closed rest) : Closed (cs ++ rest) := by
  induction h with
  | nil => exact hrest
  | plain h _ ih => exact .plain h ih
  | quoted hmark h _ ih =>
    rw [List.cons_append, List.append_assoc, List.cons_append]
    exact .quoted hmark h ih
  | comment h _ ih =>
    rw [List.cons_append, List.append_assoc, List.cons_append]
    exact .comment h ih
  | list hinside _ _ ih =>
    rw [List.cons_append, List.append_assoc, List.cons_append]
    exact .list hinside ih

/-- A run of plain characters is closed. -/
theorem of_plain {run : List Char} (h : ∀ c ∈ run, isPlain c = true) : Closed run := by
  induction run with
  | nil => exact .nil
  | cons c run ih =>
    obtain ⟨hc, hrun⟩ := List.forall_mem_cons.1 h
    exact .plain hc (ih hrun)

/-- A closed text is closed behind a plain character at its front. -/
theorem of_cons_plain (h : Closed (c :: cs)) (hc : isPlain c = true) : Closed cs := by
  cases h with
  | plain _ hcs => exact hcs
  | quoted hmark =>
    rcases hmark with rfl | rfl <;> exact absurd hc (by decide)
  | comment => exact absurd hc (by decide)
  | list => exact absurd hc (by decide)

/-- Behind plain characters a closed text is still closed. -/
theorem of_append {run : List Char} (hrun : ∀ c ∈ run, isPlain c = true) (h : Closed (run ++ cs)) :
    Closed cs := by
  induction run with
  | nil => exact h
  | cons c run ih =>
    obtain ⟨hc, hmore⟩ := List.forall_mem_cons.1 hrun
    exact ih hmore (h.of_cons_plain hc)

end Closed

/-! ## Reading closed texts -/

/-- A symbol or numeral at the end of a text does not go on behind it. -/
def Parted (cs rest : List Char) : Prop :=
  ∀ c ∈ cs.getLast?, isSymbolChar c = true → Halts rest

section

variable {cs rest : List Char}

/-- Whether a text goes on is decided at its end. -/
theorem Parted.of_append {before : List Char} (h : Parted (before ++ cs) rest) :
    Parted cs rest := by
  intro c hc
  refine h c ?_
  rw [Option.mem_def] at hc ⊢
  rw [List.getLast?_append, hc]
  rfl

/-- A run of symbol characters with a property ends where it ends in the text. -/
theorem Parted.stops {p : Char → Bool} (hp : ∀ c, p c = true → isSymbolChar c = true)
    {run : List Char} (h : Parted (run ++ cs) rest) (hne : run ≠ [])
    (hrun : ∀ c ∈ run, isSymbolChar c = true) (hstop : ∀ c ∈ cs.head?, p c = false) :
    ∀ c ∈ (cs ++ rest).head?, p c = false := by
  cases cs with
  | nil =>
    rw [List.append_nil] at h
    have hhalts := h _ (List.getLast?_eq_some_getLast hne) (hrun _ (List.getLast_mem hne))
    intro c hc
    rw [Bool.eq_false_iff]
    intro hpc
    have hchar := hhalts c hc
    rw [hp c hpc] at hchar
    cases hchar
  | cons c cs => exact hstop

/-- What is read of a text does not depend on what stands behind it: its s-expressions, or nothing
beyond a place at which no list ends either. -/
def Settled (cs : List Char) : Prop :=
  (∃ items, ∀ rest, Parted cs rest →
    readAll (cs ++ rest) = (items ++ (readAll rest).1, (readAll rest).2)) ∨
  ∀ rest, Parted cs rest → ∃ c more, (readAll (cs ++ rest)).2 = c :: more ∧ c ≠ ')'

/-- The s-expression at the front of a text does not depend on what stands behind it. -/
def SettledFront (cs : List Char) : Prop :=
  (∃ t taken behind, cs = taken ++ behind ∧ taken ≠ [] ∧ Closed behind ∧
    ∀ rest, Parted cs rest → front? (cs ++ rest) = some (t, behind ++ rest)) ∨
  ∀ rest, Parted cs rest → front? (cs ++ rest) = none

end

/-! ### The front -/

section

variable {c : Char} {cs : List Char}

/-- A run of symbol characters in front of a closed text, up to the first without a property. -/
theorem exists_run {p : Char → Bool} (hp : ∀ c, p c = true → isSymbolChar c = true)
    (h : Closed (c :: cs)) (hc : isSymbolChar c = true) :
    ∃ run behind, c :: cs = c :: run ++ behind ∧ Closed behind ∧ (∀ c ∈ run, p c = true) ∧
      (∀ c ∈ behind.head?, p c = false) ∧ ∀ c' ∈ c :: run, isSymbolChar c' = true := by
  obtain ⟨hsplit, hrun, hstop⟩ := value_takeWhile_eq_some_iff.1 (value_takeWhile p cs)
  have hchars : ∀ c' ∈ c :: cs.takeWhile p, isSymbolChar c' = true :=
    List.forall_mem_cons.2 ⟨hc, fun c' h' => hp c' (hrun c' h')⟩
  have heq : c :: cs = c :: cs.takeWhile p ++ cs.dropWhile p := congrArg (c :: ·) hsplit
  refine ⟨cs.takeWhile p, cs.dropWhile p, heq, ?_, hrun, hstop, hchars⟩
  exact .of_append (fun c' h' => isPlain_of_isSymbolChar (hchars c' h')) (heq ▸ h)

/-- A bare symbol is read to its end, or to the end of the text. -/
theorem settledFront_symbol (h : Closed (c :: cs)) (hstart : isSymbolStart c = true) :
    SettledFront (c :: cs) := by
  have hchar : isSymbolChar c = true := by simp [isSymbolChar, hstart]
  obtain ⟨run, behind, heq, hclosed, hrun, hstop, hchars⟩ := exists_run (fun _ hc => hc) h hchar
  have hname : (String.ofList (c :: run)).toList = c :: run := String.toList_ofList
  rw [heq]
  refine Or.inl ⟨symbol (String.ofList (c :: run)), c :: run, behind, rfl, List.cons_ne_nil c run,
    hclosed,
    fun rest hparted => front?_of_anyAtom ?_⟩
  have hhalts := hparted.stops (fun _ hc => hc) (List.cons_ne_nil c run) hchars hstop
  have hread := value_anyAtom_simple ((isSimple_iff hname).2 ⟨hstart, hrun⟩) hhalts
  rwa [hname, ← List.append_assoc] at hread

/-- Digits are read as a numeral, unless that is too large. -/
theorem value_natural_of_digits {run rest : List Char} (hc : c.isDigit = true)
    (hrun : ∀ c ∈ run, c.isDigit = true) (hrest : ∀ c ∈ rest.head?, c.isDigit = false) :
    (natural (c :: (run ++ rest))).value
      = (Word.unsigned? (Decimal.value (c :: run))).map fun n => (n, rest) := by
  have hmore : (takeWhile Char.isDigit (run ++ rest)).value = some (run, rest) :=
    value_takeWhile_eq_some_iff.2 ⟨rfl, hrun, hrest⟩
  unfold natural
  rw [value_bind_of_some (value_one_of_pos hc _), value_bind_of_some hmore]
  cases Word.unsigned? (Decimal.value (c :: run)) <;> rfl

/-- At a digit stands a numeral, if it fits in a word. -/
theorem value_anyAtom_of_isDigit (hc : c.isDigit = true) (cs : List Char) :
    (anyAtom (c :: cs)).value = (natural (c :: cs)).value.map fun r => (numeral r.1, r.2) := by
  obtain ⟨hquote, hpipe⟩ := ne_of_isDigit hc
  rw [anyAtom, value_firstOf_cons, value_between_eq_none hquote, Option.none_or, value_firstOf_cons,
    value_between_eq_none hpipe, Option.none_or, value_firstOf_cons,
    value_bareSymbol_eq_none (isSymbolStart_of_isDigit hc), Option.none_or, value_firstOf_cons,
    value_bind]
  cases (natural (c :: cs)).value <;> rfl

/-- A numeral is read to its end, or to the end of the text. -/
theorem settledFront_digits (h : Closed (c :: cs)) (hc : c.isDigit = true) :
    SettledFront (c :: cs) := by
  obtain ⟨run, behind, heq, hclosed, hrun, hstop, hchars⟩ :=
    exists_run (fun _ hc => isSymbolChar_of_isDigit hc) h (isSymbolChar_of_isDigit hc)
  -- the digits are a numeral or too large for one, whatever follows
  have hread : ∀ rest, Parted (c :: run ++ behind) rest →
      (anyAtom (c :: run ++ behind ++ rest)).value
        = (Word.unsigned? (Decimal.value (c :: run))).map fun n => (numeral n, behind ++ rest) := by
    intro rest hparted
    have hstops := hparted.stops (fun _ hc => isSymbolChar_of_isDigit hc) (List.cons_ne_nil c run)
      hchars hstop
    rw [List.append_assoc, List.cons_append, value_anyAtom_of_isDigit hc,
      value_natural_of_digits hc hrun hstops, Option.map_map]
    rfl
  rw [heq]
  cases hword : Word.unsigned? (Decimal.value (c :: run)) with
  | some n =>
    refine Or.inl ⟨numeral n, c :: run, behind, rfl, List.cons_ne_nil c run, hclosed,
      fun rest hparted => front?_of_anyAtom ?_⟩
    rw [hread rest hparted, hword]
    rfl
  | none =>
    refine Or.inr fun rest hparted => front?_eq_none ?_ ?_ ?_
    · exact (hread rest hparted).trans (congrArg (Option.map _) hword)
    · rintro rfl
      exact absurd hc (by decide)
    · rintro rfl
      exact absurd hc (by decide)

/-- A list is read if what is inside is settled. -/
theorem settledFront_list {inside : List Char} (hcs : Closed cs) (h : Settled inside) :
    SettledFront ('(' :: (inside ++ ')' :: cs)) := by
  -- behind the elements the parenthesis comes, whatever stands behind the list
  have hclose : ∀ rest, readAll (')' :: rest) = ([], ')' :: rest) := fun rest =>
    readAll_of_none (value_nested_eq_none (by rintro _ ⟨⟩; rfl) _)
  have hparted : ∀ rest, Parted inside (')' :: (cs ++ rest)) := fun rest c _ _ =>
    halts_cons (by decide) _
  rcases h with ⟨items, hitems⟩ | hstuck
  · refine Or.inl ⟨.list items, '(' :: inside ++ [')'], cs, by simp, List.cons_ne_nil _ _, hcs,
      fun rest _ => ?_⟩
    have hread := hitems _ (hparted rest)
    rw [hclose, List.append_nil] at hread
    simpa using front?_list hread
  · refine Or.inr fun rest _ => ?_
    obtain ⟨c, more, hleft, hne⟩ := hstuck _ (hparted rest)
    have hopen : ∀ rest', (readAll (inside ++ ')' :: (cs ++ rest))).2 ≠ ')' :: rest' := by
      intro rest' heq
      rw [hleft] at heq
      exact hne (List.cons.inj heq).1
    simpa using front?_list_eq_none hopen

/-- A symbol between marks is read whatever follows. -/
theorem settledFront_quoted {mark : Char} {content : List Char} (hmark : mark = '"' ∨ mark = '|')
    (h : mark ∉ content) (hcs : Closed cs) : SettledFront (mark :: (content ++ mark :: cs)) := by
  have htext : (String.ofList content).toList = content := String.toList_ofList
  refine Or.inl ⟨symbol (String.ofList content), mark :: content ++ [mark], cs, by simp,
    List.cons_ne_nil _ _, hcs, fun rest _ => ?_⟩
  have hread := value_anyAtom_quoted hmark (htext.symm ▸ h) (cs ++ rest)
  rw [htext] at hread
  simpa using front?_of_anyAtom hread

/-- A comment is read with its line. -/
theorem settledFront_comment {content : List Char} (h : '\n' ∉ content) (hcs : Closed cs) :
    SettledFront (';' :: (content ++ '\n' :: cs)) := by
  have htext : (String.ofList content).toList = content := String.toList_ofList
  refine Or.inl ⟨.comment (String.ofList content), ';' :: content ++ ['\n'], cs, by simp,
    List.cons_ne_nil _ _, hcs, fun rest _ => ?_⟩
  have hread := front?_comment (htext.symm ▸ h) (cs ++ rest)
  rw [htext] at hread
  simpa using hread

/-- No s-expression starts with any other plain character. -/
theorem settledFront_plain (hplain : isPlain c = true) (hstart : isSymbolStart c = false)
    (hdigit : c.isDigit = false) : SettledFront (c :: cs) := by
  have hne : ∀ mark, isPlain mark = false → mark ≠ c := by
    rintro mark hmark rfl
    rw [hplain] at hmark
    cases hmark
  refine Or.inr fun rest _ => front?_eq_none ?_ (hne ';' rfl) (hne '(' rfl)
  exact value_anyAtom_eq_none (hne '"' rfl) (hne '|' rfl) hstart hdigit (cs ++ rest)

/-- Whatever stands at the front of a closed text. -/
theorem Closed.settledFront (h : Closed (c :: cs))
    (hshorter : ∀ inside, inside.length < (c :: cs).length → Closed inside → Settled inside) :
    SettledFront (c :: cs) := by
  by_cases hstart : isSymbolStart c = true
  · exact settledFront_symbol h hstart
  by_cases hdigit : c.isDigit = true
  · exact settledFront_digits h hdigit
  cases h with
  | plain hplain _ =>
    exact settledFront_plain hplain (Bool.eq_false_iff.2 hstart) (Bool.eq_false_iff.2 hdigit)
  | quoted hmark hcontent hcs => exact settledFront_quoted hmark hcontent hcs
  | comment hline hcs => exact settledFront_comment hline hcs
  | list hinside hcs =>
    refine settledFront_list hcs (hshorter _ ?_ hinside)
    rw [List.length_cons, List.length_append]
    omega

end

/-! ### All of a text -/

/-- A closed text does not start by closing a list. -/
theorem Closed.head_ne {c : Char} {cs : List Char} (h : Closed (c :: cs)) : c ≠ ')' := by
  rintro rfl
  cases h with
  | plain h => exact absurd h (by decide)
  | quoted hmark => rcases hmark with hmark | hmark <;> exact absurd hmark (by decide)

/-- **A closed text is settled**: what is read of it does not depend on what stands behind it. -/
theorem Closed.settled {cs : List Char} (h : Closed cs) : Settled cs := by
  -- the induction is on the length: a list is settled if its inside is, and so is the text behind
  -- the front
  induction hlength : cs.length using Nat.strong_induction_on generalizing cs with
  | _ n ih =>
    obtain ⟨hsplit, hgap, hstop⟩ := value_takeWhile_eq_some_iff.1 (value_takeWhile isSpace cs)
    have hskip : ∀ rest, readAll (cs ++ rest) = readAll (cs.dropWhile isSpace ++ rest) := by
      intro rest
      have hread := readAll_append_of_spaces hgap (cs.dropWhile isSpace ++ rest)
      rwa [← List.append_assoc, ← hsplit] at hread
    have hclosed : Closed (cs.dropWhile isSpace) :=
      .of_append (fun c hc => isPlain_of_isSpace (hgap c hc)) (hsplit ▸ h)
    have hparted : ∀ rest, Parted cs rest → Parted (cs.dropWhile isSpace) rest := by
      intro rest hparted
      rw [hsplit] at hparted
      exact hparted.of_append
    have hle : (cs.dropWhile isSpace).length ≤ cs.length := List.length_dropWhile_le ..
    unfold Settled
    simp only [hskip]
    cases hfront : cs.dropWhile isSpace with
    | nil => exact Or.inl ⟨[], fun rest _ => rfl⟩
    | cons c behind =>
      rw [hfront] at hclosed hparted hstop hle
      have hspace : isSpace c = false := hstop c rfl
      have hdrop : ∀ rest, (c :: behind ++ rest).dropWhile isSpace = c :: behind ++ rest :=
        fun rest =>
        List.dropWhile_cons_of_neg (by simp [hspace])
      have hone := hclosed.settledFront fun inside hinside hinsideClosed =>
        ih _ (by omega) hinsideClosed rfl
      rcases hone with ⟨t, taken, after, heq, hne, hafter, hread⟩ | hnone
      · have hmore : ∀ rest, Parted cs rest → Parted after rest := fun rest hrest =>
          (heq ▸ hparted rest hrest : Parted (taken ++ after) rest).of_append
        have hshorter : after.length < n := by
          have hpos := List.length_pos_of_ne_nil hne
          rw [heq, List.length_append] at hle
          omega
        have hnext : ∀ rest, Parted cs rest → readAll (c :: behind ++ rest)
            = (t :: (readAll (after ++ rest)).1, (readAll (after ++ rest)).2) := fun rest hrest =>
          readAll_of_some (by rw [hdrop]; exact hread rest (hparted rest hrest))
        rcases ih _ hshorter hafter rfl with ⟨items, hitems⟩ | hstuck
        · refine Or.inl ⟨t :: items, fun rest hrest => ?_⟩
          rw [hnext rest hrest, hitems rest (hmore rest hrest)]
          rfl
        · refine Or.inr fun rest hrest => ?_
          rw [hnext rest hrest]
          exact hstuck rest (hmore rest hrest)
      · refine Or.inr fun rest hrest => ⟨c, behind ++ rest, ?_, hclosed.head_ne⟩
        rw [readAll_of_none (by rw [hdrop]; exact hnone rest (hparted rest hrest)), hdrop]
        rfl

/-! ## Printed forms -/

/-- A symbol whose printed form opens nothing that it does not close: between marks it does not hold
the mark, and it has no semicolon where it is bare. -/
def Enclosed (s : String) : Prop :=
  Unmixed s ∧ (';' ∈ s.toList → '|' ∈ s.toList ∨ ∃ c ∈ s.toList, Atom.isSpecial c = true)

instance : DecidablePred Unmixed := fun s =>
  decidable_of_iff (s.toList.any Atom.isSpecial = true → '|' ∉ s.toList)
    (by rw [Unmixed, List.any_eq_true])

instance : DecidablePred Enclosed := fun s =>
  decidable_of_iff (Unmixed s ∧
    (';' ∈ s.toList → '|' ∈ s.toList ∨ s.toList.any Atom.isSpecial = true))
    (by rw [Enclosed, List.any_eq_true])

/-- The printed form of an enclosed symbol is closed. -/
theorem Enclosed.closed {s : String} (h : Enclosed s) : Closed (Atom.symbol s).chars := by
  rcases chars_symbol_cases s with
    ⟨hspecial, hchars⟩ | ⟨hplain, hpipe, hchars⟩ | ⟨hplain, hpipe, hchars⟩
  · rw [hchars]
    exact .quoted (Or.inr rfl) (h.1 hspecial) .nil
  · rw [hchars]
    exact .quoted (Or.inl rfl) (fun hmem => absurd (hplain '"' hmem) (by decide)) .nil
  · rw [hchars]
    refine .of_plain fun c hc => isPlain_iff.2 ⟨?_, ?_, ?_, ?_, ?_⟩ <;> rintro rfl
    · exact absurd (hplain _ hc) (by decide)
    · exact hpipe hc
    · rcases h.2 hc with hmem | ⟨c', hmem, hspecial⟩
      · exact hpipe hmem
      · rw [hplain c' hmem] at hspecial
        cases hspecial
    · exact absurd (hplain _ hc) (by decide)
    · exact absurd (hplain _ hc) (by decide)

/-- The digits of a number are a closed text. -/
theorem closed_digits (n : Nat) : Closed (Decimal.digits n) :=
  .of_plain fun c hc => isPlain_of_isSymbolChar
    (isSymbolChar_of_isDigit (List.all_eq_true.1 (Decimal.isNumeral_digits n) c hc))

/-- The printed items of a list are a closed text if each of them is. -/
theorem closed_itemsChars {items : List Sexp}
    (hcomments : ∀ text, .comment text ∈ items → OneLine text)
    (hitems : ∀ t ∈ items, (∀ text, t ≠ .comment text) → Closed t.chars) (spaced : Bool) :
    Closed (itemsChars spaced items) := by
  induction items generalizing spaced with
  | nil => exact .nil
  | cons t items ih =>
    have hmore := ih (fun text h => hcomments text (List.mem_cons_of_mem t h))
      fun t' h => hitems t' (List.mem_cons_of_mem t h)
    by_cases hcomment : ∃ text, t = .comment text
    · obtain ⟨text, rfl⟩ := hcomment
      rw [itemsChars_comment]
      exact .plain (by decide) (.comment (hcomments text List.mem_cons_self) (hmore false))
    · have hne : ∀ text, t ≠ .comment text := fun text heq => hcomment ⟨text, heq⟩
      have hgap : Closed (if spaced then [' '] else []) := by
        cases spaced
        · exact .nil
        · exact .plain (by decide) .nil
      rw [itemsChars_cons_of_ne hne]
      exact (hgap.append (hitems t List.mem_cons_self hne)).append (hmore true)

/-- **Printed s-expressions are closed**, if all their symbols are enclosed and their comments end
with their lines. -/
theorem closed_chars {t : Sexp} (h : t.Composed Enclosed OneLine)
    (hne : ∀ text, t ≠ .comment text) :
    Closed t.chars := by
  induction h with
  | numeral n => exact closed_digits n.toNat
  | symbol h => exact h.closed
  | comment => exact absurd rfl (hne _)
  | @list items h ih =>
    have hcomments : ∀ text, Sexp.comment text ∈ items → OneLine text := by
      intro text hmem
      cases h _ hmem with
      | comment h => exact h
    rw [chars]
    exact .list (closed_itemsChars hcomments ih false) .nil

end Interpolants.Sexp
