import Interpolants.Proofs.Sexp.Reprint

/-!
# Interpolants — which s-expressions are read back

A symbol between quotes may hold any characters, and the printer decides by a few of them whether it
quotes the symbol. So not all that is read is read again from its printed form: `|1|` is printed
`1`, which is a numeral. What is read back is exactly what has only symbols that survive
(`reparses_iff`).

## The architecture

That no other s-expression is read back by accident takes two steps.

* **Quotation marks are counted.** A symbol with a pipe is read between double quotes only, and one
  that also has a special character is printed between pipes. So of an s-expression with such a
  symbol fewer quotation marks are printed than it takes to read it (`unmixed_of_value_nested`).
* **Reading keeps in step with printing** (`inStep`). Without such symbols, whatever is printed in
  front is read as it was printed, or it is a bare symbol that is no simple one. That one cannot be
  read; and if it is made of spaces alone and skipped, the text behind it does not make up for it
  (`Guarded`).
-/

namespace Interpolants

namespace Sexp

open Text Text.Reader

/-! ## Comments end with their lines -/

section

variable {p q p' q' : String → Prop} {t : Sexp} {cs rest : List Char} {depth limit : Nat}

/-- Two properties of the symbols hold together. -/
theorem Composed.and (h : t.Composed p q) (h' : t.Composed p' q') :
    t.Composed (fun s => p s ∧ p' s) fun s => q s ∧ q' s := by
  induction h with
  | numeral n => exact .numeral n
  | symbol hs =>
    cases h' with
    | symbol hs' => exact .symbol ⟨hs, hs'⟩
  | comment htext =>
    cases h' with
    | comment htext' => exact .comment ⟨htext, htext'⟩
  | list _ ih => exact .list fun t ht => ih t ht (h'.of_list t ht)

/-- A weaker property holds of the symbols too. -/
theorem Composed.mono (h : t.Composed p q) (hp : ∀ s, p s → p' s) (hq : ∀ s, q s → q' s) :
    t.Composed p' q' := by
  induction h with
  | numeral n => exact .numeral n
  | symbol hs => exact .symbol (hp _ hs)
  | comment htext => exact .comment (hq _ htext)
  | list _ ih => exact .list ih

/-- Whatever holds of what a reader gives holds of all that it gives one after the other. -/
theorem forall_of_value_manyUpTo {reader : Reader Sexp} {good : Sexp → Prop}
    (hgood : ∀ cs t rest, (reader cs).value = some (t, rest) → good t) {items : List Sexp}
    (h : (manyUpTo reader limit cs).value = some (items, rest)) : ∀ t ∈ items, good t := by
  induction items generalizing limit cs with
  | nil => exact List.forall_mem_nil _
  | cons t items ih =>
    obtain ⟨fewer, mid, hread, hmore⟩ := exists_of_value_manyUpTo_cons h
    exact List.forall_mem_cons.2 ⟨hgood _ _ _ hread, ih hmore⟩

/-- No comment that is read runs on behind its line. -/
theorem composed_of_value_nested (h : (nested depth cs).value = some (t, rest)) :
    t.Composed (fun _ => True) OneLine := by
  induction depth generalizing cs t rest with
  | zero => cases h
  | succ depth ih =>
    cases taken_of_value_nested h with
    | quoted => exact .symbol trivial
    | simple => exact .symbol trivial
    | numeral n => exact .numeral n
    | comment hline => exact .comment hline
    | list hitems => exact .list (forall_of_value_manyUpTo (fun _ _ _ => ih) hitems)

end

/-! ## Counting quotation marks -/

mutual

/-- The quotation marks in an s-expression, where each symbol counts as told. -/
def quotes (count : String → Nat) : Sexp → Nat
  | .atom (.numeral _) => 0
  | .atom (.symbol s) => count s
  | .comment text => text.toList.count '"'
  | .list items => quotesAll count items

/-- The quotation marks in some s-expressions. -/
def quotesAll (count : String → Nat) : List Sexp → Nat
  | [] => 0
  | t :: ts => quotes count t + quotesAll count ts

end

/-- The quotation marks in a symbol as it is printed. -/
def printedQuotes (s : String) : Nat :=
  (Atom.symbol s).chars.count '"'

/-- The quotation marks that it takes to read a symbol: with a pipe in it, it stands between two. -/
def neededQuotes (s : String) : Nat :=
  s.toList.count '"' + if '|' ∈ s.toList then 2 else 0

section

variable {t : Sexp} {cs rest : List Char} {depth limit : Nat} {items : List Sexp}

theorem count_digits (c : Char) (hc : c.isDigit = false) {digits : List Char}
    (h : ∀ c ∈ digits, c.isDigit = true) : digits.count c = 0 := by
  rw [List.count_eq_zero]
  intro hmem
  rw [h c hmem] at hc
  cases hc

mutual

/-- The quotation marks in the printed form are those of its symbols and comments. -/
theorem count_chars : (t : Sexp) → t.chars.count '"' = quotes printedQuotes t
  | .atom (.numeral n) => by
    rw [quotes]
    exact count_digits '"' (by decide) (List.all_eq_true.1 (Decimal.isNumeral_digits n.toNat))
  | .atom (.symbol s) => by
    rw [quotes]
    rfl
  | .comment text => by
    rw [quotes, chars, List.count_cons_of_ne (by decide)]
  | .list items => by
    rw [quotes, chars, List.count_append, List.count_cons_of_ne (by decide),
      count_itemsChars false items]
    rfl

/-- The quotation marks of a printed list are those of its items. -/
theorem count_itemsChars (spaced : Bool) :
    (items : List Sexp) → (itemsChars spaced items).count '"' = quotesAll printedQuotes items
  | [] => rfl
  | .comment text :: items => by
    rw [itemsChars_comment, quotesAll, quotes, List.count_cons_of_ne (by decide),
      List.count_cons_of_ne (by decide), List.count_append, List.count_cons_of_ne (by decide),
      count_itemsChars false items]
  | .atom a :: items => by
    rw [itemsChars_cons_of_ne (atom_ne_comment a), quotesAll, List.count_append, List.count_append,
      count_chars (.atom a), count_itemsChars true items]
    cases spaced <;> simp
  | .list inner :: items => by
    rw [itemsChars_cons_of_ne (list_ne_comment inner), quotesAll, List.count_append,
      List.count_append, count_chars (.list inner), count_itemsChars true items]
    cases spaced <;> simp

end

theorem count_dropWhile_le (c : Char) (p : Char → Bool) (cs : List Char) :
    (cs.dropWhile p).count c ≤ cs.count c :=
  (List.dropWhile_suffix p).sublist.count_le c

/-- A symbol without pipes needs its own quotation marks only. -/
theorem neededQuotes_of_not_mem {s : String} (h : '|' ∉ s.toList) :
    neededQuotes s = s.toList.count '"' := by
  rw [neededQuotes, if_neg h, Nat.add_zero]

/-- Some s-expressions take no fewer quotation marks than each of them. -/
theorem quotes_of_value_manyUpTo {reader : Reader Sexp}
    (hread : ∀ cs t rest, (reader cs).value = some (t, rest) →
      quotes neededQuotes t + rest.count '"' ≤ cs.count '"')
    (h : (manyUpTo reader limit cs).value = some (items, rest)) :
    quotesAll neededQuotes items + rest.count '"' ≤ cs.count '"' := by
  induction items generalizing limit cs with
  | nil =>
    rw [eq_of_value_manyUpTo_nil h, quotesAll, Nat.zero_add]
  | cons t items ih =>
    obtain ⟨fewer, mid, hfirst, hmore⟩ := exists_of_value_manyUpTo_cons h
    have := hread _ _ _ hfirst
    have := ih hmore
    have := count_dropWhile_le '"' isSpace cs
    rw [quotesAll]
    omega

/-- **It takes the needed quotation marks to read an s-expression.** -/
theorem quotes_of_value_nested (h : (nested depth cs).value = some (t, rest)) :
    quotes neededQuotes t + rest.count '"' ≤ cs.count '"' := by
  induction depth generalizing cs t rest with
  | zero => cases h
  | succ depth ih =>
    cases taken_of_value_nested h with
    | @quoted mark s hmark hs =>
      rw [symbol, quotes, List.count_cons, List.count_append, List.count_cons]
      -- between pipes there is no pipe, and between double quotes the two marks pay for one
      rcases hmark with rfl | rfl
      · rw [neededQuotes]
        split <;> simp <;> omega
      · rw [neededQuotes_of_not_mem hs]
        simp
    | simple hs =>
      rw [symbol, quotes, neededQuotes_of_not_mem (not_mem_of_isSimple hs), List.count_append]
    | numeral n hdigits =>
      rw [numeral, quotes, List.count_append, count_digits '"' (by decide) hdigits]
    | comment hline =>
      rw [quotes, List.count_cons_of_ne (by decide), List.count_append,
        List.count_cons_of_ne (by decide)]
    | @list inside mid rest items hitems hclose =>
      have hall := quotes_of_value_manyUpTo (fun _ _ _ => ih) hitems
      have hskip := count_dropWhile_le '"' isSpace mid
      rw [hclose, List.count_cons_of_ne (by decide)] at hskip
      rw [quotes, List.count_cons_of_ne (by decide)]
      omega

end

/-! ## No symbol is mixed -/

/-- A symbol that has no pipe beside a special character. -/
def Unmixed (s : String) : Prop :=
  (∃ c ∈ s.toList, Atom.isSpecial c = true) → '|' ∉ s.toList

section

variable {t : Sexp} {items : List Sexp}

/-- A symbol with a special character is printed with its own quotation marks, and another with
those that it needs. -/
theorem printedQuotes_cases (s : String) :
    (printedQuotes s = s.toList.count '"' ∧ ∃ c ∈ s.toList, Atom.isSpecial c = true) ∨
      printedQuotes s = neededQuotes s ∧ ∀ c ∈ s.toList, Atom.isSpecial c = false := by
  unfold printedQuotes neededQuotes
  rcases chars_symbol_cases s with
    ⟨hspecial, hchars⟩ | ⟨hplain, hpipe, hchars⟩ | ⟨hplain, hpipe, hchars⟩
  · refine Or.inl ⟨?_, hspecial⟩
    rw [hchars]
    simp
  · refine Or.inr ⟨?_, hplain⟩
    rw [hchars, if_pos hpipe]
    simp
  · refine Or.inr ⟨?_, hplain⟩
    rw [hchars, if_neg hpipe, Nat.add_zero]

/-- No symbol is printed with more quotation marks than it needs. -/
theorem printedQuotes_le (s : String) : printedQuotes s ≤ neededQuotes s := by
  rcases printedQuotes_cases s with ⟨heq, -⟩ | ⟨heq, -⟩
  · rw [heq]
    exact Nat.le_add_right _ _
  · exact Nat.le_of_eq heq

/-- A mixed symbol is printed with too few quotation marks. -/
theorem unmixed_of_le {s : String} (h : neededQuotes s ≤ printedQuotes s) : Unmixed s := by
  rcases printedQuotes_cases s with ⟨heq, -⟩ | ⟨-, hplain⟩
  · intro _ hpipe
    rw [heq, neededQuotes, if_pos hpipe] at h
    omega
  · rintro ⟨c, hc, hspecial⟩
    rw [hplain c hc] at hspecial
    cases hspecial

mutual

/-- An s-expression has no more quotation marks than with a greater count for each symbol. -/
theorem quotes_le {f g : String → Nat} (h : ∀ s, f s ≤ g s) : (t : Sexp) → quotes f t ≤ quotes g t
  | .atom (.numeral _) => Nat.le_refl _
  | .atom (.symbol s) => h s
  | .comment _ => Nat.le_refl _
  | .list items => quotesAll_le h items

/-- Some s-expressions have no more quotation marks than with a greater count for each symbol. -/
theorem quotesAll_le {f g : String → Nat} (h : ∀ s, f s ≤ g s) :
    (items : List Sexp) → quotesAll f items ≤ quotesAll g items
  | [] => Nat.le_refl _
  | t :: items => Nat.add_le_add (quotes_le h t) (quotesAll_le h items)

end

mutual

/-- Where the printed quotation marks are enough, no symbol is mixed. -/
theorem composed_of_quotes_le : (t : Sexp) → quotes neededQuotes t ≤ quotes printedQuotes t →
    t.Composed Unmixed fun _ => True
  | .atom (.numeral n), _ => .numeral n
  | .atom (.symbol _), h => .symbol (unmixed_of_le h)
  | .comment _, _ => .comment trivial
  | .list items, h => .list (composed_of_quotesAll_le items h)

/-- Where the printed quotation marks are enough, no symbol of a list is mixed. -/
theorem composed_of_quotesAll_le : (items : List Sexp) →
    quotesAll neededQuotes items ≤ quotesAll printedQuotes items →
    ∀ t ∈ items, t.Composed Unmixed fun _ => True
  | [], _ => List.forall_mem_nil _
  | t :: items, h => by
    have hfirst := quotes_le printedQuotes_le t
    have hmore := quotesAll_le printedQuotes_le items
    rw [quotesAll, quotesAll] at h
    exact List.forall_mem_cons.2
      ⟨composed_of_quotes_le t (by omega), composed_of_quotesAll_le items (by omega)⟩

end

/-- **What is read at its printed form has no mixed symbol.** -/
theorem unmixed_of_value_nested {depth : Nat} {rest : List Char}
    (h : (nested depth (t.chars.dropWhile isSpace)).value = some (t, rest)) :
    t.Composed Unmixed fun _ => True := by
  refine composed_of_quotes_le t ?_
  have hneeded := quotes_of_value_nested h
  have hskip := count_dropWhile_le '"' isSpace t.chars
  rw [count_chars] at hskip
  omega

end

/-! ## Reading keeps in step with printing -/

/-- A bare symbol that is read at the front of the text is a simple one. -/
def Guarded (cs : List Char) : Prop :=
  ∀ depth s rest, (nested depth (cs.dropWhile isSpace)).value = some (symbol s, rest) →
    (∀ c ∈ s.toList, Atom.isSpecial c = false) → '|' ∉ s.toList → isSimple s = true

section

variable {cs rest : List Char} {c : Char} {s : String} {t : Sexp} {items : List Sexp}

theorem guarded_nil : Guarded [] := by
  intro depth s rest h
  have hnone : (nested depth []).value = none :=
    value_nested_eq_none (fun _ hc => by cases hc) depth
  rw [List.dropWhile_nil, hnone] at h
  cases h

/-- Spaces in front do not change what is read as a bare symbol. -/
theorem guarded_spaces (h : ∀ c ∈ cs, isSpace c = true) (hrest : Guarded rest) :
    Guarded (cs ++ rest) := by
  unfold Guarded
  rw [List.dropWhile_append_of_pos h]
  exact hrest

/-- Only a quotation mark or a pipe opens a symbol that is not simple. -/
theorem guarded_of_dropWhile {cs' : List Char} (h : cs.dropWhile isSpace = c :: cs')
    (hquote : '"' ≠ c) (hpipe : '|' ≠ c) : Guarded cs := by
  intro depth s rest hread _ _
  rw [h] at hread
  rcases isSimple_or_marked hread with hsimple | ⟨_, heq | heq⟩
  · exact hsimple
  · exact absurd (List.cons.inj heq).1.symm hquote
  · exact absurd (List.cons.inj heq).1.symm hpipe

/-- A character that starts no symbol guards what follows. -/
theorem guarded_of_head (h : isSpace c = false) (hquote : '"' ≠ c) (hpipe : '|' ≠ c)
    (cs : List Char) :
    Guarded (c :: cs) :=
  guarded_of_dropWhile (List.dropWhile_cons_of_neg (by simp [h])) hquote hpipe

/-- Between quotes stands a symbol that is not bare. -/
theorem guarded_quoted {mark : Char} (hmark : mark = '"' ∨ mark = '|') (h : mark ∉ s.toList)
    (hquoted : (∃ c ∈ s.toList, Atom.isSpecial c = true) ∨ '|' ∈ s.toList) (rest : List Char) :
    Guarded (mark :: (s.toList ++ mark :: rest)) := by
  have hspace : isSpace mark = false := by
    rcases hmark with rfl | rfl <;> rfl
  intro depth s' rest' hread hplain hpipe
  rw [List.dropWhile_cons_of_neg (by simp [hspace])] at hread
  obtain _ | depth := depth
  · cases hread
  rw [value_nested_atom (value_anyAtom_quoted hmark h rest)] at hread
  cases hread
  rcases hquoted with ⟨c, hc, hspecial⟩ | hmem
  · rw [hplain c hc] at hspecial
    cases hspecial
  · exact absurd hmem hpipe

/-- The first character that is kept is one of those in front, unless all of those are dropped. -/
theorem exists_dropWhile_append {p : Char → Bool} (h : ¬ ∀ c ∈ cs, p c = true) (rest : List Char) :
    ∃ c ∈ cs, ∃ behind, (cs ++ rest).dropWhile p = c :: behind := by
  cases hskip : cs.dropWhile p with
  | nil => exact absurd (List.dropWhile_eq_nil_iff.1 hskip) h
  | cons c behind =>
    have hc : c ∈ cs := (List.dropWhile_suffix p).subset (by rw [hskip]; exact List.mem_cons_self)
    refine ⟨c, hc, behind ++ rest, ?_⟩
    rw [List.dropWhile_append, hskip]
    rfl

/-- A printed symbol does not stand in for one behind it. -/
theorem guarded_symbol (hs : Unmixed s) (hrest : Guarded rest) :
    Guarded ((Atom.symbol s).chars ++ rest) := by
  rcases chars_symbol_cases s with
    ⟨hspecial, hchars⟩ | ⟨hplain, hpipe, hchars⟩ | ⟨hplain, hpipe, hchars⟩
  · have hquoted := guarded_quoted (Or.inr rfl) (hs hspecial) (Or.inl hspecial) rest
    rw [hchars]
    simpa using hquoted
  · have hquote : '"' ∉ s.toList := fun hmem => absurd (hplain '"' hmem) (by decide)
    have hquoted := guarded_quoted (Or.inl rfl) hquote (Or.inr hpipe) rest
    rw [hchars]
    simpa using hquoted
  · rw [hchars]
    by_cases hspaces : ∀ c ∈ s.toList, isSpace c = true
    · exact guarded_spaces hspaces hrest
    · obtain ⟨c, hc, behind, hskip⟩ := exists_dropWhile_append hspaces rest
      refine guarded_of_dropWhile hskip ?_ ?_
      · rintro rfl
        exact absurd (hplain '"' hc) (by decide)
      · rintro rfl
        exact hpipe hc

/-- The items of a list guard what stands before them. -/
theorem guarded_element (ht : ∀ text, t ≠ .comment text)
    (h : Guarded (t.chars ++ (itemsChars true items ++ rest))) (spaced : Bool) :
    Guarded (itemsChars spaced (t :: items) ++ rest) := by
  unfold Guarded
  rw [dropWhile_itemsChars_of_ne ht]
  exact h

/-- Wherever an element stands in a list, the printed elements behind it do not stand in for it. -/
theorem guarded_itemsChars (h : ∀ t ∈ items, t.Composed Unmixed OneLine) (spaced : Bool)
    (rest : List Char) : Guarded (itemsChars spaced items ++ ')' :: rest) := by
  induction items generalizing spaced with
  | nil => exact guarded_of_head (by decide) (by decide) (by decide) rest
  | cons t items ih =>
    obtain ⟨ht, hitems⟩ := List.forall_mem_cons.1 h
    cases ht with
    | comment =>
      exact guarded_of_dropWhile (dropWhile_itemsChars_comment spaced _ items _) (by decide)
        (by decide)
    | numeral n =>
      refine guarded_element (atom_ne_comment _) ?_ spaced
      obtain ⟨c, digits, heq, hdigit⟩ := exists_cons_digits n.toNat
      obtain ⟨hquote, hpipe⟩ := ne_of_isDigit hdigit
      rw [show chars (.atom (.numeral n)) = c :: digits from heq]
      exact guarded_of_head (isSpace_of_isDigit hdigit) hquote hpipe _
    | symbol hs =>
      refine guarded_element (atom_ne_comment _) ?_ spaced
      -- a symbol guards itself if what follows is guarded
      exact guarded_symbol hs (ih hitems true)
    | list =>
      refine guarded_element (list_ne_comment _) ?_ spaced
      exact guarded_of_head (by decide) (by decide) (by decide) _

/-- If the s-expression is read at its printed form, wherever that stands, then all of its symbols
survive and no more than the printed form is read. -/
def InStep (depth : Nat) (t : Sexp) : Prop :=
  ∀ rest behind, Halts rest → Guarded rest →
    (nested depth ((t.chars ++ rest).dropWhile isSpace)).value = some (t, behind) →
    t.Composed Survives OneLine ∧ behind = rest

/-- What survives is read in step. -/
theorem inStep_of_composed (h : t.Composed Survives OneLine) (ht : ∀ text, t ≠ .comment text)
    {depth : Nat} (hback : t.ReadBack depth) : InStep depth t := by
  intro rest behind hrest _ hread
  rw [(h.starts ht).dropWhile_eq, hback rest hrest] at hread
  cases hread
  exact ⟨h, rfl⟩

/-- A bare symbol is either simple or cannot be read, neither where it stands nor, if it is made of
spaces and skipped, behind. -/
theorem inStep_symbol (hs : Unmixed s) (depth : Nat) : InStep (depth + 1) (symbol s) := by
  have hsurvives : Survives s → InStep (depth + 1) (symbol s) := fun h =>
    inStep_of_composed (.symbol h) (atom_ne_comment _) (h.readBack depth)
  rcases chars_symbol_cases s with ⟨hspecial, -⟩ | ⟨hplain, hpipe, -⟩ | ⟨hplain, hpipe, -⟩
  · have hpipe := hs hspecial
    exact hsurvives (Or.inr (Or.inl (by simpa [isQuotable] using ⟨hspecial, hpipe⟩)))
  · exact hsurvives (Or.inr (Or.inr ⟨hpipe, hplain⟩))
  · -- printed without quotes, it stands where nothing but a simple symbol can be read
    intro rest behind hrest hguard hread
    have hsimple := guarded_symbol hs hguard _ _ _ hread hplain hpipe
    exact hsurvives (Or.inl hsimple) rest behind hrest hguard hread

/-- The elements of a list are read in step if each is. -/
theorem inStep_items {depth : Nat}
    (hstep : ∀ t ∈ items, (∀ text, t ≠ .comment text) → InStep depth t)
    (h : ∀ t ∈ items, t.Composed Unmixed OneLine) {limit : Nat} {spaced : Bool} {mid : List Char}
    (hread : (manyUpTo (nested depth) limit (itemsChars spaced items ++ ')' :: rest)).value
      = some (items, mid)) :
    (∀ t ∈ items, t.Composed Survives OneLine) ∧ mid = ')' :: rest := by
  induction items generalizing limit spaced with
  | nil => exact ⟨List.forall_mem_nil _, eq_of_value_manyUpTo_nil hread⟩
  | cons t items ih =>
    obtain ⟨fewer, behind, hfirst, hmore⟩ := exists_of_value_manyUpTo_cons hread
    obtain ⟨ht, hitems⟩ := List.forall_mem_cons.1 h
    have hothers : ∀ t ∈ items, (∀ text, t ≠ .comment text) → InStep depth t :=
      fun t' hmem => hstep t' (List.mem_cons_of_mem t hmem)
    by_cases hcomment : ∃ text, t = .comment text
    · obtain ⟨text, rfl⟩ := hcomment
      have hline : OneLine text := by
        cases ht with
        | comment hline => exact hline
      -- a comment ends with its line, whatever is behind it
      obtain _ | depth := depth
      · cases hfirst
      rw [dropWhile_itemsChars_comment, value_nested_comment hline] at hfirst
      cases hfirst
      obtain ⟨hall, hmid⟩ := ih hothers hitems hmore
      exact ⟨List.forall_mem_cons.2 ⟨.comment hline, hall⟩, hmid⟩
    · have hne : ∀ text, t ≠ .comment text := fun text heq => hcomment ⟨text, heq⟩
      rw [dropWhile_itemsChars_of_ne hne] at hfirst
      obtain ⟨hsurvives, rfl⟩ := hstep t List.mem_cons_self hne _ _ (halts_itemsChars items rest)
        (guarded_itemsChars hitems true rest) hfirst
      obtain ⟨hall, hmid⟩ := ih hothers hitems hmore
      exact ⟨List.forall_mem_cons.2 ⟨hsurvives, hall⟩, hmid⟩

/-- **Reading keeps in step with printing.** -/
theorem inStep (h : t.Composed Unmixed OneLine) (ht : ∀ text, t ≠ .comment text) (depth : Nat) :
    InStep depth t := by
  induction h generalizing depth with
  | numeral n =>
    obtain _ | depth := depth
    · exact fun _ _ _ _ => nofun
    exact inStep_of_composed (.numeral n) ht (readBack_numeral n depth)
  | symbol hs =>
    obtain _ | depth := depth
    · exact fun _ _ _ _ => nofun
    exact inStep_symbol hs depth
  | comment => exact absurd rfl (ht _)
  | @list items hitems ih =>
    obtain _ | depth := depth
    · exact fun _ _ _ _ => nofun
    intro rest behind hrest _ hread
    have hchars : (Sexp.list items).chars ++ rest
        = '(' :: (itemsChars false items ++ ')' :: rest) := by
      rw [chars]
      simp
    rw [hchars, List.dropWhile_cons_of_neg (by decide)] at hread
    obtain ⟨mid, hmany, hclose⟩ := exists_of_value_nested_list hread
    -- all items are read in step, so the parenthesis is the list's own
    obtain ⟨hall, rfl⟩ := inStep_items (fun t hmem hne => ih t hmem hne depth) hitems hmany
    rw [List.dropWhile_cons_of_neg (by decide)] at hclose
    exact ⟨.list hall, (List.cons.inj hclose).2.symm⟩

end

/-! ## Whole texts -/

section

variable {text : String} {t : Sexp}

/-- What is parsed is read behind the spaces at the front. -/
theorem exists_of_parse_eq_ok (h : parse text = .ok t) :
    ∃ depth rest, (nested depth (text.toList.dropWhile isSpace)).value = some (t, rest) := by
  obtain ⟨rest, hread, -⟩ := exists_of_run_eq_ok h
  exact ⟨_, rest, hread⟩

/-- An s-expression that comes through printing and parsing consists of symbols that survive. -/
theorem Composed.of_parse_render (hcomments : t.Composed (fun _ => True) OneLine)
    (ht : ∀ text, t ≠ .comment text) (h : parse t.render = .ok t) :
    t.Composed Survives OneLine := by
  obtain ⟨depth, rest, hread⟩ := exists_of_parse_eq_ok h
  rw [render, String.toList_ofList] at hread
  have hunmixed : t.Composed Unmixed OneLine :=
    (hcomments.and (unmixed_of_value_nested hread)).mono (fun _ h => h.2) fun _ h => h.1
  have hread' : (nested depth ((t.chars ++ []).dropWhile isSpace)).value = some (t, rest) := by
    rw [List.append_nil]
    exact hread
  exact (inStep hunmixed ht depth [] rest halts_nil guarded_nil hread').1

end

/-- **What is read is read back exactly if its symbols survive.** -/
theorem reparses_iff {text : String} {t : Sexp} (h : parse text = .ok t)
    (ht : ∀ text, t ≠ .comment text) :
    parse t.render = .ok t ↔ t.Composed Survives fun _ => True := by
  obtain ⟨depth, rest, hread⟩ := exists_of_parse_eq_ok h
  have hcomments := composed_of_value_nested hread
  constructor
  · intro hback
    exact (hcomments.of_parse_render ht hback).mono (fun _ h => h) fun _ _ => trivial
  · intro hsurvives
    have hcomposed : t.Composed Survives OneLine :=
      (hcomments.and hsurvives).mono (fun _ h => h.2) fun _ h => h.1
    exact Reparsable.parse_eq ⟨hcomposed, ht⟩

/-- A reply with a comment in it, and a symbol of each kind. -/
theorem reparses_iff_reply :
    let reply := "( and |a b|\t\"x|y\" ; .cse1\n.cse0)"
    let t := Sexp.app "and" [.symbol "a b", .symbol "x|y", .comment " .cse1", .symbol ".cse0"]
    parse reply = .ok t ∧ t.render = "(and |a b| \"x|y\"\n; .cse1\n.cse0)" ∧
    parse t.render = .ok t := by
  intro reply t
  have hreply : parse reply = .ok t := by decide +kernel
  exact ⟨hreply, by decide +kernel,
    (reparses_iff hreply (list_ne_comment _)).2 (by decide +kernel)⟩

/-- A symbol of digits is not quoted, and is read back as a numeral. -/
theorem reparses_as_numeral :
    parse "|1|" = .ok (symbol "1") ∧ (symbol "1").render = "1" ∧ parse "1" = .ok (numeral 1) ∧
      parse (symbol "1").render ≠ .ok (symbol "1") := by
  decide +kernel

end Sexp

end Interpolants
