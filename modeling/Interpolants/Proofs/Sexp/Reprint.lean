import Interpolants.Proofs.Sexp.Reading

/-!
# Interpolants — printed s-expressions are read back

The printer quotes a symbol by its characters, and the grammar separates the elements of a list by
any number of spaces, also by none. Each printed element is shown to end where the printer ended it:
before a space, before the line of a comment, or before a closing parenthesis, where no symbol and
no numeral goes on (`Halts`).

## The architecture

* **`Survives`** — the symbols that come through printing and reading.
* **`Composed`** — a condition on all symbols and comments of an s-expression.
* **`Composed.readBack`** — a printed s-expression is read back before any `Halts` text; the
  induction is on the s-expression, and `value_manyUpTo_itemsChars` does the elements of a list.
-/

namespace Interpolants

namespace Sexp

open Text Text.Reader

/-! ## Symbols and comments -/

/-- A symbol that is read bare, one that is quoted for a special character, or one with a pipe and
no special character. -/
def Survives (name : String) : Prop :=
  isSimple name = true ∨ isQuotable name = true ∨
    '|' ∈ name.toList ∧ ∀ c ∈ name.toList, Atom.isSpecial c = false

instance : DecidablePred Survives := fun name =>
  decidable_of_iff ((isSimple name || isQuotable name ||
    name.toList.contains '|' && name.toList.all fun c => !Atom.isSpecial c) = true)
    (by simp [Survives, or_assoc])

/-- A comment that ends with its line. -/
def OneLine (text : String) : Prop :=
  '\n' ∉ text.toList

instance : DecidablePred OneLine :=
  fun text => inferInstanceAs (Decidable ('\n' ∉ text.toList))

/-- A simple symbol holds no pipe. -/
theorem not_mem_of_isSimple {s : String} (h : isSimple s = true) : '|' ∉ s.toList := by
  obtain ⟨-, -, -, -, hall⟩ := exists_cons_of_isSimple h
  exact fun hmem => (of_isSymbolChar (hall '|' hmem)).2 rfl

namespace Survives

variable {name : String}

/-- What is quoted for a special character holds no pipe. -/
theorem unpiped (h : Survives name) (hspecial : ∃ c ∈ name.toList, Atom.isSpecial c = true) :
    '|' ∉ name.toList := by
  rcases h with hsimple | hquotable | ⟨-, hplain⟩
  · exact not_mem_of_isSimple hsimple
  · exact (exists_of_isQuotable hquotable).2
  · obtain ⟨c, hc, hspecial⟩ := hspecial
    rw [hplain c hc] at hspecial
    cases hspecial

/-- What is printed bare is read bare. -/
theorem isSimple (h : Survives name) (hplain : ∀ c ∈ name.toList, Atom.isSpecial c = false)
    (hpipe : '|' ∉ name.toList) : isSimple name = true := by
  rcases h with hsimple | hquotable | ⟨hmem, -⟩
  · exact hsimple
  · obtain ⟨⟨c, hc, hspecial⟩, -⟩ := exists_of_isQuotable hquotable
    rw [hplain c hc] at hspecial
    cases hspecial
  · exact absurd hmem hpipe

/-- Whichever way it is printed, the symbol is what is read. -/
theorem value_anyAtom (h : Survives name) {rest : List Char} (hrest : Halts rest) :
    (anyAtom ((Atom.symbol name).chars ++ rest)).value = some (symbol name, rest) := by
  rcases chars_symbol_cases name with
    ⟨hspecial, hchars⟩ | ⟨hplain, -, hchars⟩ | ⟨hplain, hpipe, hchars⟩
  · have hread := value_anyAtom_quoted (Or.inr rfl) (h.unpiped hspecial) rest
    rw [hchars]
    simpa using hread
  · have hquote : '"' ∉ name.toList := fun hmem => absurd (hplain '"' hmem) (by decide)
    have hread := value_anyAtom_quoted (Or.inl rfl) hquote rest
    rw [hchars]
    simpa using hread
  · rw [hchars]
    exact value_anyAtom_simple (h.isSimple hplain hpipe) hrest

end Survives

/-- An s-expression whose symbols and comments have the properties. -/
inductive Composed (p q : String → Prop) : Sexp → Prop where
  | numeral (n : UInt64) : Composed p q (.atom (.numeral n))
  | symbol {s : String} (h : p s) : Composed p q (.atom (.symbol s))
  | comment {text : String} (h : q text) : Composed p q (.comment text)
  | list {items : List Sexp} (h : ∀ t ∈ items, Composed p q t) : Composed p q (.list items)

theorem Composed.of_list {p q : String → Prop} {items : List Sexp}
    (h : (Sexp.list items).Composed p q) :
    ∀ t ∈ items, t.Composed p q := by
  cases h with
  | list h => exact h

section

variable (p q : String → Prop) [DecidablePred p] [DecidablePred q]

mutual

/-- Whether the symbols and the comments of an s-expression have the properties. -/
def decComposed : (t : Sexp) → Decidable (t.Composed p q)
  | .atom (.numeral n) => isTrue (.numeral n)
  | .atom (.symbol s) => decidable_of_iff (p s) ⟨.symbol, fun h => by cases h; assumption⟩
  | .comment text => decidable_of_iff (q text) ⟨.comment, fun h => by cases h; assumption⟩
  | .list items =>
    match decComposedAll items with
    | isTrue h => isTrue (.list h)
    | isFalse h => isFalse fun hitems => h hitems.of_list

/-- Whether the symbols and the comments of some s-expressions have the properties. -/
def decComposedAll : (ts : List Sexp) → Decidable (∀ t ∈ ts, t.Composed p q)
  | [] => isTrue (by simp)
  | t :: ts =>
    match decComposed t, decComposedAll ts with
    | isTrue h, isTrue hs => isTrue (by simpa using ⟨h, hs⟩)
    | isFalse h, _ => isFalse fun hall => h (hall t (by simp))
    | _, isFalse hs => isFalse fun hall => hs fun t' ht' => hall t' (by simp [ht'])

end

instance (t : Sexp) : Decidable (t.Composed p q) :=
  decComposed p q t

end

/-! ## Elements of a list -/

section

variable {rest : List Char} {t : Sexp} {items : List Sexp}

theorem halts_nil : Halts [] :=
  nofun

theorem halts_cons {c : Char} (h : isSymbolChar c = false) (cs : List Char) : Halts (c :: cs) := by
  rintro _ ⟨⟩
  exact h

/-- No space stands in a bare symbol. -/
theorem isSymbolChar_of_isSpace {c : Char} (h : isSpace c = true) : isSymbolChar c = false := by
  rw [Bool.eq_false_iff]
  intro hchar
  have hblank := (of_isSymbolChar hchar).1
  rw [isBlank_of_isSpace h] at hblank
  cases hblank

theorem atom_ne_comment (a : Atom) (text : String) : Sexp.atom a ≠ .comment text :=
  fun heq => by cases heq

theorem list_ne_comment (items : List Sexp) (text : String) : Sexp.list items ≠ .comment text :=
  fun heq => by cases heq

/-- A comment is printed on a line of its own. -/
theorem itemsChars_comment (spaced : Bool) (text : String) (items : List Sexp) :
    itemsChars spaced (.comment text :: items)
      = '\n' :: ';' :: (text.toList ++ '\n' :: itemsChars false items) := by
  rw [itemsChars]
  rfl

/-- What is no comment is printed behind a space, but for the first. -/
theorem itemsChars_cons_of_ne (ht : ∀ text, t ≠ .comment text) (spaced : Bool) (items : List Sexp) :
    itemsChars spaced (t :: items)
      = (if spaced then [' '] else []) ++ t.chars ++ itemsChars true items := by
  rw [itemsChars]
  exact ht

/-- Behind an element a space, the line of a comment or the closing parenthesis follows. -/
theorem halts_itemsChars (items : List Sexp) (rest : List Char) :
    Halts (itemsChars true items ++ ')' :: rest) := by
  cases items with
  | nil => exact halts_cons (by decide) rest
  | cons t items =>
    cases t with
    | comment text =>
      rw [itemsChars_comment]
      exact halts_cons (by decide) _
    | atom a =>
      rw [itemsChars_cons_of_ne (atom_ne_comment a)]
      exact halts_cons (by decide) _
    | list inner =>
      rw [itemsChars_cons_of_ne (list_ne_comment inner)]
      exact halts_cons (by decide) _

/-- A printed s-expression starts with no space. -/
def Starts (t : Sexp) : Prop :=
  ∃ c cs, t.chars = c :: cs ∧ isSpace c = false

/-- There are no spaces to skip in front of what starts with none. -/
theorem Starts.dropWhile_eq (h : t.Starts) (more : List Char) :
    (t.chars ++ more).dropWhile isSpace = t.chars ++ more := by
  obtain ⟨c, cs, heq, hc⟩ := h
  rw [heq, List.cons_append, List.dropWhile_cons_of_neg (by simp [hc])]

theorem Starts.length_pos (h : t.Starts) : 0 < t.chars.length := by
  obtain ⟨c, cs, heq, -⟩ := h
  rw [heq]
  exact Nat.succ_pos _

/-- At its printed form, the s-expression is read and nothing else. -/
def ReadBack (depth : Nat) (t : Sexp) : Prop :=
  ∀ rest, Halts rest → (nested depth (t.chars ++ rest)).value = some (t, rest)

/-- In front of a comment there is only the end of a line to skip. -/
theorem dropWhile_itemsChars_comment (spaced : Bool) (text : String) (items : List Sexp)
    (rest : List Char) : (itemsChars spaced (.comment text :: items) ++ rest).dropWhile isSpace
      = ';' :: (text.toList ++ '\n' :: (itemsChars false items ++ rest)) := by
  rw [itemsChars_comment, List.cons_append, List.dropWhile_cons_of_pos rfl, List.cons_append,
    List.dropWhile_cons_of_neg (by decide), List.append_assoc, List.cons_append]

/-- In front of an item there is only its space to skip. -/
theorem dropWhile_itemsChars_of_ne (ht : ∀ text, t ≠ .comment text) (spaced : Bool)
    (items : List Sexp) (rest : List Char) :
    (itemsChars spaced (t :: items) ++ rest).dropWhile isSpace
      = (t.chars ++ (itemsChars true items ++ rest)).dropWhile isSpace := by
  rw [itemsChars_cons_of_ne ht, List.append_assoc, List.append_assoc]
  cases spaced <;> rfl

/-- **The elements of a list are read one after the other**, up to the closing parenthesis. -/
theorem value_manyUpTo_itemsChars {depth : Nat}
    (hcomments : ∀ text, .comment text ∈ items → OneLine text)
    (hitems : ∀ t ∈ items, (∀ text, t ≠ .comment text) → t.Starts ∧ t.ReadBack (depth + 1))
    {limit : Nat} (hlimit : items.length ≤ limit) (spaced : Bool) (rest : List Char) :
    (manyUpTo (nested (depth + 1)) limit (itemsChars spaced items ++ ')' :: rest)).value
      = some (items, ')' :: rest) := by
  induction items generalizing limit spaced with
  | nil =>
    refine value_manyUpTo_of_none (value_nested_eq_none ?_ _) limit
    rintro _ ⟨⟩
    rfl
  | cons t items ih =>
    obtain _ | limit := limit
    · cases hlimit
    have hmore : ∀ spaced, (manyUpTo (nested (depth + 1)) limit
        (itemsChars spaced items ++ ')' :: rest)).value = some (items, ')' :: rest) :=
      ih (fun text h => hcomments text (List.mem_cons_of_mem t h))
        (fun t' h => hitems t' (List.mem_cons_of_mem t h)) (Nat.le_of_succ_le_succ hlimit)
    -- a comment ends with its line, any other item where the next one starts
    by_cases hcomment : ∃ text, t = .comment text
    · obtain ⟨text, rfl⟩ := hcomment
      have hread : (nested (depth + 1)
          ((itemsChars spaced (.comment text :: items) ++ ')' :: rest).dropWhile isSpace)).value
            = some (.comment text, itemsChars false items ++ ')' :: rest) := by
        rw [dropWhile_itemsChars_comment]
        exact value_nested_comment (hcomments text List.mem_cons_self) depth _
      rw [value_manyUpTo_of_some hread, hmore]
      rfl
    · have ht : ∀ text, t ≠ .comment text := fun text heq => hcomment ⟨text, heq⟩
      obtain ⟨hstarts, hback⟩ := hitems t List.mem_cons_self ht
      have hread := hback _ (halts_itemsChars items rest)
      rw [← hstarts.dropWhile_eq, ← dropWhile_itemsChars_of_ne ht spaced] at hread
      rw [value_manyUpTo_of_some hread, hmore]
      rfl

/-- There are no more items than characters, and no item is longer than all of them. -/
theorem length_le_itemsChars (hstarts : ∀ t ∈ items, (∀ text, t ≠ .comment text) → t.Starts)
    (spaced : Bool) : items.length ≤ (itemsChars spaced items).length ∧
      ∀ t ∈ items, (∀ text, t ≠ .comment text) →
      t.chars.length ≤ (itemsChars spaced items).length := by
  induction items generalizing spaced with
  | nil => exact ⟨Nat.le_refl _, nofun⟩
  | cons t items ih =>
    have hmore := ih fun t' h => hstarts t' (List.mem_cons_of_mem t h)
    by_cases hcomment : ∃ text, t = .comment text
    · obtain ⟨text, rfl⟩ := hcomment
      obtain ⟨hlength, hall⟩ := hmore false
      simp only [itemsChars_comment, List.length_cons, List.length_append]
      refine ⟨by omega, fun t' ht' hne => ?_⟩
      rcases List.mem_cons.1 ht' with rfl | ht'
      · exact absurd rfl (hne text)
      · have := hall t' ht' hne
        omega
    · have ht : ∀ text, t ≠ .comment text := fun text heq => hcomment ⟨text, heq⟩
      obtain ⟨hlength, hall⟩ := hmore true
      -- an item that is no comment has at least one character of its own
      have hpos := (hstarts t List.mem_cons_self ht).length_pos
      simp only [itemsChars_cons_of_ne ht, List.length_cons, List.length_append]
      refine ⟨by omega, fun t' ht' hne => ?_⟩
      rcases List.mem_cons.1 ht' with rfl | ht'
      · omega
      · have := hall t' ht' hne
        omega

end

/-! ## S-expressions -/

section

variable {t : Sexp}

/-- No symbol starts with a space. -/
theorem isSpace_of_isSymbolStart {c : Char} (h : isSymbolStart c = true) : isSpace c = false := by
  rw [Bool.eq_false_iff]
  intro hspace
  have hchar := isSymbolChar_of_isSpace hspace
  rw [isSymbolChar, h] at hchar
  cases hchar

theorem isSpace_of_isDigit {c : Char} (h : c.isDigit = true) : isSpace c = false := by
  rw [Bool.eq_false_iff]
  intro hspace
  have hchar := isSymbolChar_of_isSpace hspace
  rw [isSymbolChar_of_isDigit h] at hchar
  cases hchar

/-- A symbol that survives starts with no space. -/
theorem Survives.starts {name : String} (h : Survives name) : (Sexp.symbol name).Starts := by
  rcases chars_symbol_cases name with ⟨-, hchars⟩ | ⟨-, -, hchars⟩ | ⟨hplain, hpipe, hchars⟩
  · exact ⟨'|', _, hchars, by decide⟩
  · exact ⟨'"', _, hchars, by decide⟩
  · obtain ⟨c, cs, heq, hstart, -⟩ := exists_cons_of_isSimple (h.isSimple hplain hpipe)
    exact ⟨c, cs, hchars.trans heq, isSpace_of_isSymbolStart hstart⟩

/-- An s-expression of symbols that survive starts with no space, unless it is a comment. -/
theorem Composed.starts (h : t.Composed Survives OneLine) (ht : ∀ text, t ≠ .comment text) :
    t.Starts := by
  cases h with
  | numeral n =>
    obtain ⟨c, cs, heq, hdigit⟩ := exists_cons_digits n.toNat
    exact ⟨c, cs, heq, isSpace_of_isDigit hdigit⟩
  | symbol h => exact h.starts
  | comment => exact absurd rfl (ht _)
  | list => exact ⟨'(', _, rfl, by decide⟩

/-- Numerals are read back. -/
theorem readBack_numeral (n : UInt64) (depth : Nat) : (numeral n).ReadBack (depth + 1) :=
  fun _ hrest => value_nested_atom (value_anyAtom_numeral n hrest) depth

/-- A symbol that survives is read back. -/
theorem Survives.readBack {name : String} (h : Survives name) (depth : Nat) :
    (symbol name).ReadBack (depth + 1) :=
  fun _ hrest => value_nested_atom (h.value_anyAtom hrest) depth

/-- **A printed s-expression is read back**, wherever it stands. -/
theorem Composed.readBack (h : t.Composed Survives OneLine) (ht : ∀ text, t ≠ .comment text)
    {depth : Nat} (hdepth : t.chars.length < depth) : t.ReadBack depth := by
  induction h generalizing depth with
  | numeral n =>
    obtain _ | depth := depth
    · cases hdepth
    exact readBack_numeral n depth
  | symbol h =>
    obtain _ | depth := depth
    · cases hdepth
    exact h.readBack depth
  | comment => exact absurd rfl (ht _)
  | @list items hitems ih =>
    have hlength : (Sexp.list items).chars.length = (itemsChars false items).length + 2 := by
      rw [chars]
      simp
    obtain ⟨hcount, hfits⟩ := length_le_itemsChars (fun t ht => (hitems t ht).starts) false
    obtain _ | _ | depth := depth
    · omega
    · omega
    -- the elements are printed shorter than the list, so the depth that is left is enough for each
    intro rest hrest
    have hmany : (many (nested (depth + 1)) (itemsChars false items ++ ')' :: rest)).value
        = some (items, ')' :: rest) := by
      refine value_manyUpTo_itemsChars (fun text h => ?_) (fun t ht hne => ?_) ?_ false rest
      · cases hitems _ h with
        | comment h => exact h
      · have := hfits t ht hne
        exact ⟨(hitems t ht).starts hne, ih t ht hne (by omega)⟩
      · rw [List.length_append]
        omega
    have hclose : (')' :: rest).dropWhile isSpace = ')' :: rest :=
      List.dropWhile_cons_of_neg (by decide)
    have hread := value_nested_list hmany hclose
    rw [chars]
    simpa using hread

end

/-! ## Whole texts -/

/-- An s-expression that comes through printing and reading. -/
structure Reparsable (t : Sexp) : Prop where
  composed : t.Composed Survives OneLine
  not_comment : ∀ text, t ≠ .comment text

/-- A single s-expression comes through printing and parsing. -/
theorem Reparsable.parse_eq {t : Sexp} (h : t.Reparsable) : parse t.render = .ok t := by
  have hread := h.composed.readBack h.not_comment (Nat.lt_succ_self _) [] halts_nil
  have hskip := (h.composed.starts h.not_comment).dropWhile_eq []
  rw [List.append_nil] at hread hskip
  have htext : t.render.toList = t.chars := String.toList_ofList
  rw [parse, htext]
  exact run_eq_ok (by rw [hskip]; exact hread) rfl

/-- The printed forms of some s-expressions, each behind the characters paired with it. -/
def joined (items : List (List Char × Sexp)) : List Char :=
  items.flatMap fun item => item.1 ++ item.2.chars

/-- The first of some printed s-expressions stands behind its own gap. -/
theorem joined_cons (gap : List Char) (t : Sexp) (items : List (List Char × Sexp)) :
    joined ((gap, t) :: items) = gap ++ (t.chars ++ joined items) := by
  rw [joined, List.flatMap_cons, List.append_assoc]
  rfl

section

variable {items : List (List Char × Sexp)} {behind : List Char}

theorem halts_of_spaces {cs : List Char} (h : ∀ c ∈ cs, isSpace c = true) : Halts cs :=
  fun c hc => isSymbolChar_of_isSpace (h c (List.mem_of_mem_head? hc))

/-- Behind a printed s-expression stands a space, if anything. -/
theorem halts_joined (hgaps : ∀ item ∈ items, (∀ c ∈ item.1, isSpace c = true) ∧ item.1 ≠ [])
    (hbehind : ∀ c ∈ behind, isSpace c = true) : Halts (joined items ++ behind) := by
  cases items with
  | nil => exact halts_of_spaces hbehind
  | cons item items =>
    obtain ⟨gap, t⟩ := item
    obtain ⟨hspaces, hne⟩ := hgaps _ List.mem_cons_self
    obtain ⟨c, cs, rfl⟩ := List.exists_cons_of_ne_nil hne
    rw [joined_cons, List.append_assoc]
    exact halts_cons (isSymbolChar_of_isSpace (hspaces c List.mem_cons_self)) _

/-- There are no more s-expressions than characters, and none is longer than the text. -/
theorem length_le_joined (h : ∀ item ∈ items, item.2.Starts) :
    items.length ≤ (joined items).length ∧
      ∀ item ∈ items, item.2.chars.length ≤ (joined items).length := by
  induction items with
  | nil => exact ⟨Nat.le_refl _, nofun⟩
  | cons item items ih =>
    obtain ⟨gap, t⟩ := item
    obtain ⟨hlength, hall⟩ := ih fun item hitem => h item (List.mem_cons_of_mem _ hitem)
    have hpos := (h (gap, t) List.mem_cons_self).length_pos
    dsimp only at hpos
    rw [joined_cons, List.length_cons, List.length_append, List.length_append]
    refine ⟨by omega, fun item hitem => ?_⟩
    rcases List.mem_cons.1 hitem with rfl | hitem
    · show t.chars.length ≤ _
      omega
    · have := hall item hitem
      omega

/-- Printed s-expressions with spaces between them are read one after the other. -/
theorem value_manyUpTo_joined {depth : Nat}
    (hitems : ∀ item ∈ items, item.2.Starts ∧ item.2.ReadBack depth)
    (hspaces : ∀ item ∈ items, ∀ c ∈ item.1, isSpace c = true)
    (hgaps : ∀ item ∈ items.tail, item.1 ≠ []) (hbehind : ∀ c ∈ behind, isSpace c = true)
    {limit : Nat} (hlimit : items.length ≤ limit) :
    (manyUpTo (nested depth) limit (joined items ++ behind)).value
      = some (items.map Prod.snd, behind) := by
  induction items generalizing limit with
  | nil =>
    have hnone : behind.dropWhile isSpace = [] := List.dropWhile_eq_nil_iff.2 hbehind
    refine value_manyUpTo_of_none (value_nested_eq_none ?_ _) limit
    show ∀ c ∈ (behind.dropWhile isSpace).head?, c = ')'
    rw [hnone]
    nofun
  | cons item items ih =>
    obtain _ | limit := limit
    · cases hlimit
    obtain ⟨gap, t⟩ := item
    obtain ⟨hstarts, hback⟩ := hitems _ List.mem_cons_self
    -- what stands behind the element ends it: a space, or the end of the text
    have hhalts : Halts (joined items ++ behind) := by
      refine halts_joined (fun item hitem => ⟨?_, hgaps item hitem⟩) hbehind
      exact hspaces item (List.mem_cons_of_mem _ hitem)
    have hskip : (joined ((gap, t) :: items) ++ behind).dropWhile isSpace
        = t.chars ++ (joined items ++ behind) := by
      rw [joined_cons, List.append_assoc, List.append_assoc,
        List.dropWhile_append_of_pos (hspaces _ List.mem_cons_self)]
      exact hstarts.dropWhile_eq _
    have hread := hback _ hhalts
    rw [← hskip] at hread
    rw [value_manyUpTo_of_some hread, ih (fun item h => hitems item (List.mem_cons_of_mem _ h))
      (fun item h => hspaces item (List.mem_cons_of_mem _ h))
      (fun item h => hgaps item (List.mem_of_mem_tail h)) (Nat.le_of_succ_le_succ hlimit)]
    rfl

/-- All elements of a text that starts with no space are read. -/
theorem value_many_joined (hitems : ∀ item ∈ items, item.2.Reparsable)
    (hspaces : ∀ item ∈ items, ∀ c ∈ item.1, isSpace c = true)
    (hgaps : ∀ item ∈ items.tail, item.1 ≠ []) (hbehind : ∀ c ∈ behind, isSpace c = true) :
    (many (nested ((joined items ++ behind).length + 1)) (joined items ++ behind)).value
      = some (items.map Prod.snd, behind) := by
  have hstarts : ∀ item ∈ items, item.2.Starts := fun item h =>
    (hitems item h).composed.starts (hitems item h).not_comment
  obtain ⟨hlength, hfits⟩ := length_le_joined hstarts
  refine value_manyUpTo_joined (fun item h => ⟨hstarts item h, ?_⟩) hspaces hgaps hbehind ?_
  · refine (hitems item h).composed.readBack (hitems item h).not_comment ?_
    have := hfits item h
    rw [List.length_append]
    omega
  · rw [List.length_append]
    omega

/-- A text is parsed if its s-expressions reach to its end. -/
theorem parseMany_eq_ok {text rest : List Char} {ts : List Sexp}
    (h : (many (nested ((text.dropWhile isSpace).length + 1)) (text.dropWhile isSpace)).value
      = some (ts, rest))
    (hend : rest.dropWhile isSpace = []) : parseMany (String.ofList text) = .ok ts := by
  rw [parseMany, String.toList_ofList]
  exact @run_eq_ok _ (fun cs => many (nested (cs.length + 1)) cs) text rest ts h hend

/-- S-expressions with spaces between them come through printing and parsing. -/
theorem parseMany_joined (hitems : ∀ item ∈ items, item.2.Reparsable)
    (hspaces : ∀ item ∈ items, ∀ c ∈ item.1, isSpace c = true)
    (hgaps : ∀ item ∈ items.tail, item.1 ≠ []) (hbehind : ∀ c ∈ behind, isSpace c = true) :
    parseMany (String.ofList (joined items ++ behind)) = .ok (items.map Prod.snd) := by
  have hend : behind.dropWhile isSpace = [] := List.dropWhile_eq_nil_iff.2 hbehind
  cases items with
  | nil =>
    have hskip : (joined [] ++ behind).dropWhile isSpace = joined [] ++ [] := hend
    have hread : (many (nested ((joined [] ++ []).length + 1)) (joined [] ++ [])).value
        = some ([], []) :=
      value_many_joined nofun nofun nofun nofun
    rw [← hskip] at hread
    exact parseMany_eq_ok hread rfl
  | cons item items =>
    -- the spaces in front are gone by the time that the elements are read
    obtain ⟨gap, t⟩ := item
    obtain ⟨ht, hmore⟩ := List.forall_mem_cons.1 hitems
    obtain ⟨hgap, hothers⟩ := List.forall_mem_cons.1 hspaces
    have hskip : (joined ((gap, t) :: items) ++ behind).dropWhile isSpace
        = joined (([], t) :: items) ++ behind := by
      rw [joined_cons, joined_cons, List.nil_append, List.append_assoc, List.append_assoc,
        List.dropWhile_append_of_pos hgap]
      exact (ht.composed.starts ht.not_comment).dropWhile_eq _
    refine parseMany_eq_ok ?_ hend
    rw [hskip]
    exact value_many_joined (List.forall_mem_cons.2 ⟨ht, hmore⟩)
      (List.forall_mem_cons.2 ⟨nofun, hothers⟩) hgaps hbehind

end

/-- **Printed s-expressions are read back**, one in a text of its own and some in one text with any
spaces between them and around. -/
theorem parses_back :
    (∀ t : Sexp, t.Reparsable → parse t.render = .ok t) ∧
      ∀ (items : List (List Char × Sexp)) (behind : List Char),
        (∀ item ∈ items, item.2.Reparsable) → (∀ item ∈ items, ∀ c ∈ item.1, isSpace c = true) →
        (∀ item ∈ items.tail, item.1 ≠ []) → (∀ c ∈ behind, isSpace c = true) →
        parseMany (String.ofList (joined items ++ behind)) = .ok (items.map Prod.snd) :=
  ⟨fun _ h => h.parse_eq, fun _ _ => parseMany_joined⟩

/-- A comment in a list, an empty list beside it, and symbols of all three kinds. -/
theorem parses_back_command :
    let t :=
      Sexp.app "assert" [.comment " it's (", .list [], .app ".cse0" [.numeral 18446744073709551615,
      .symbol "a b", .symbol "it's", .symbol "x|y"]]
    let items := [(['\n'], t), (['\t', ' '], .symbol "sat")]
    (t.Reparsable ∧ ∀ item ∈ items, item.2.Reparsable) ∧
      t.render = "(assert\n; it's (\n() (.cse0 18446744073709551615 |a b| |it's| \"x|y\"))" ∧
      parse t.render = .ok t ∧
      parseMany (String.ofList (joined items ++ ['\r', '\n'])) = .ok [t, .symbol "sat"] := by
  intro t items
  have ht : t.Reparsable := ⟨by decide +kernel, list_ne_comment _⟩
  have hitems : ∀ item ∈ items, item.2.Reparsable :=
    List.forall_mem_cons.2 ⟨ht, List.forall_mem_cons.2
      ⟨⟨by decide +kernel, atom_ne_comment _⟩, List.forall_mem_nil _⟩⟩
  have hgaps : ∀ item ∈ items, item.1.all isSpace = true := by decide
  have hspaces : ∀ item ∈ items, ∀ c ∈ item.1, isSpace c = true :=
    fun item hitem => List.all_eq_true.1 (hgaps item hitem)
  obtain ⟨hparse, hmany⟩ := parses_back
  exact ⟨⟨ht, hitems⟩, by decide +kernel, hparse t ht,
    hmany items ['\r', '\n'] hitems hspaces (by decide) (List.all_eq_true.1 (by decide))⟩

end Sexp

end Interpolants
