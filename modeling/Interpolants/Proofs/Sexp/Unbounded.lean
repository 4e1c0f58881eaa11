import Interpolants.Proofs.Sexp.Reading

/-!
# Interpolants — reading without bounds

The grammar bounds how deep lists are nested and how many s-expressions are read, both by the length
of the text, so that no bound is ever reached. `front?` and `readAll` are reading with the bounds
that the text itself gives. They satisfy the equations that one expects of reading without any, and
they say of a whole text whether it is read (`toOption_parseMany`).
-/

namespace Interpolants.Sexp

open Text Text.Reader

/-! ## Bounds -/

/-- A symbol between marks has at least its marks. -/
theorem consumes_between (mark : Char) : Consumes (between mark) := by
  refine (consumes_word mark []).bind fun _ n => (shortens_takeWhile _ n).bind fun _ => ?_
  exact (shortens_word _ n).bind fun _ => .pure _

theorem consumes_bareSymbol : Consumes bareSymbol :=
  (consumes_one _).bind fun _ n => (shortens_takeWhile _ n).bind fun _ => .pure _

/-- A numeral has a digit. -/
theorem consumes_natural : Consumes natural := by
  refine (consumes_one _).bind fun _ n => (shortens_takeWhile _ n).bind fun _ => ?_
  split
  · exact .pure _
  · exact .fail

/-- No atom is empty. -/
theorem consumes_anyAtom : Consumes anyAtom := by
  refine .firstOf fun reader hreader => ?_
  simp only [List.mem_cons, List.not_mem_nil, or_false] at hreader
  rcases hreader with rfl | rfl | rfl | rfl
  · exact (consumes_between '"').bind fun _ _ => .pure _
  · exact (consumes_between '|').bind fun _ _ => .pure _
  · exact consumes_bareSymbol.bind fun _ _ => .pure _
  · exact consumes_natural.bind fun _ _ => .pure _

theorem consumes_lineComment : Consumes lineComment := by
  refine (consumes_word ';' []).bind fun _ n => (shortens_takeWhile _ n).bind fun _ => ?_
  exact (shortens_word _ n).bind fun _ => .pure _

/-- No s-expression is empty. -/
theorem consumes_nested (depth : Nat) : Consumes (nested depth) := by
  induction depth with
  | zero => nofun
  | succ depth ih =>
    rw [nested]
    refine .firstOf fun reader hreader => ?_
    simp only [List.mem_cons, List.not_mem_nil, or_false] at hreader
    rcases hreader with rfl | rfl | rfl
    · exact consumes_anyAtom
    · exact consumes_lineComment
    · refine (consumes_word '(' []).bind fun _ n => Keeps.bind (fun cs items rest hcs hitems => ?_)
        fun _ => (shortens_spaces n).bind fun _ => (shortens_word _ n).bind fun _ => .pure _
      exact (ih.shortens n).manyUpTo (shortens_spaces n) _ cs items rest hcs hitems

/-- Bounds on the depth that are above the length of a text are all the same. -/
theorem sameUpTo_nested (n : Nat) {depth depth' : Nat} (h : n < depth) (h' : n < depth') :
    SameUpTo n (nested depth) (nested depth') := by
  induction n using Nat.strong_induction_on generalizing depth depth' with
  | _ n ih =>
    obtain _ | depth := depth
    · cases h
    obtain _ | depth' := depth'
    · cases h'
    rw [nested, nested]
    refine .firstOf (.cons (.refl _) (.cons (.refl _) (.cons ?_ .nil)))
    refine .behind (consumes_word '(' []) fun _ m hm => ?_
    have hdeeper : SameUpTo m (nested depth) (nested depth') := ih m hm (by omega) (by omega)
    refine (hdeeper.many (consumes_nested depth).shortens).bind (fun k cs items rest => ?_)
      fun _ => .refl _
    exact ((consumes_nested depth).shortens k).manyUpTo (shortens_spaces k) _ cs items rest

/-! ## Reading -/

/-- The s-expression at the front of a text, and what stands behind it. -/
def front? (cs : List Char) : Option (Sexp × List Char) :=
  (nested (cs.length + 1) cs).value

/-- The s-expressions of a text up to the first place where none stands, and the text from there
on. -/
def readAll (cs : List Char) : List Sexp × List Char :=
  match (many (nested (cs.length + 1)) cs).value with
  | some (items, rest) => (items, rest.dropWhile isSpace)
  | none => ([], cs)

variable {cs rest : List Char} {t : Sexp} {items : List Sexp} {depth : Nat}

/-- The bound on the depth does not matter once it exceeds the length of the text. -/
theorem value_nested_eq_front? (h : cs.length < depth) : (nested depth cs).value = front? cs :=
  sameUpTo_nested cs.length h (Nat.lt_succ_self _) cs (Nat.le_refl _)

/-- The bound on the depth of some s-expressions does not matter once it exceeds the length of the
text. -/
theorem value_many_nested (h : cs.length < depth) :
    (many (nested depth) cs).value = (many (nested (cs.length + 1)) cs).value :=
  (sameUpTo_nested cs.length h (Nat.lt_succ_self _)).many (consumes_nested depth).shortens cs
    (Nat.le_refl _)

/-- The s-expression at the front leaves less of the text. -/
theorem length_lt_of_front? (h : front? cs = some (t, rest)) : rest.length < cs.length :=
  consumes_nested _ cs t rest h

theorem front?_dropWhile (cs : List Char) :
    (nested (cs.length + 1) (cs.dropWhile isSpace)).value = front? (cs.dropWhile isSpace) :=
  value_nested_eq_front? (Nat.lt_succ_of_le (List.length_dropWhile_le ..))

/-- What is read with the bounds of the text. -/
theorem exists_value_many (cs : List Char) :
    ∃ rest, (many (nested (cs.length + 1)) cs).value = some ((readAll cs).1, rest) ∧
      rest.dropWhile isSpace = (readAll cs).2 := by
  obtain ⟨items, rest, hread⟩ := exists_value_manyUpTo (nested (cs.length + 1)) (cs.length + 1) cs
  have hmany : (many (nested (cs.length + 1)) cs).value = some (items, rest) := hread
  rw [readAll, hmany]
  exact ⟨rest, rfl, rfl⟩

/-- What a bounded reader takes off a text is all of its s-expressions, if the bound is large
enough. -/
theorem readAll_eq {depth : Nat} (hdepth : cs.length < depth)
    (h : (many (nested depth) cs).value = some (items, rest)) :
    readAll cs = (items, rest.dropWhile isSpace) := by
  rw [value_many_nested hdepth] at h
  rw [readAll, h]

/-- One s-expression after the other is read, with spaces in front of each. -/
theorem readAll_of_some (h : front? (cs.dropWhile isSpace) = some (t, rest)) :
    readAll cs = (t :: (readAll rest).1, (readAll rest).2) := by
  have hrest : rest.length < cs.length :=
    Nat.lt_of_lt_of_le (length_lt_of_front? h) (List.length_dropWhile_le ..)
  rw [← front?_dropWhile] at h
  obtain ⟨behind, hread, hbehind⟩ := exists_value_many rest
  have hmore : (manyUpTo (nested (cs.length + 1)) cs.length rest).value
      = some ((readAll rest).1, behind) :=
    ((consumes_nested _).value_manyUpTo hrest (Nat.lt_succ_self _)).trans
      ((value_many_nested (Nat.lt_succ_of_lt hrest)).trans hread)
  rw [readAll_eq (Nat.lt_succ_self _) ((value_manyUpTo_of_some h cs.length).trans
    (congrArg (Option.map _) hmore)), hbehind]

/-- Where no s-expression stands, none is read. -/
theorem readAll_of_none (h : front? (cs.dropWhile isSpace) = none) :
    readAll cs = ([], cs.dropWhile isSpace) := by
  rw [← front?_dropWhile] at h
  exact readAll_eq (Nat.lt_succ_self _) (value_manyUpTo_of_none h _)

/-- Spaces in front of a text do not matter. -/
theorem readAll_append_of_spaces {gap : List Char} (hgap : ∀ c ∈ gap, isSpace c = true)
    (cs : List Char) :
    readAll (gap ++ cs) = readAll cs := by
  have hskip : (gap ++ cs).dropWhile isSpace = cs.dropWhile isSpace :=
    List.dropWhile_append_of_pos hgap
  cases hread : front? (cs.dropWhile isSpace) with
  | none => rw [readAll_of_none hread, readAll_of_none (hskip ▸ hread), hskip]
  | some result => rw [readAll_of_some hread, readAll_of_some (hskip ▸ hread)]

/-! ## What stands in front -/

/-- An atom at the front is the s-expression there. -/
theorem front?_of_anyAtom (h : (anyAtom cs).value = some (t, rest)) : front? cs = some (t, rest) :=
  value_nested_atom h _

theorem front?_comment {text : String} (hline : '\n' ∉ text.toList) (rest : List Char) :
    front? (';' :: (text.toList ++ '\n' :: rest)) = some (.comment text, rest) :=
  value_nested_comment hline _ rest

/-- A list is at the front if all that is inside is read up to its parenthesis. -/
theorem front?_list (h : readAll cs = (items, ')' :: rest)) :
    front? ('(' :: cs) = some (.list items, rest) := by
  obtain ⟨behind, hread, hbehind⟩ := exists_value_many cs
  rw [h] at hread hbehind
  have hdepth : cs.length < ('(' :: cs).length := Nat.lt_succ_self _
  rw [← value_many_nested hdepth] at hread
  exact value_nested_list hread hbehind

/-- A list that is not closed is not read. -/
theorem front?_list_eq_none (h : ∀ rest, (readAll cs).2 ≠ ')' :: rest) :
    front? ('(' :: cs) = none := by
  have hatom := value_anyAtom_eq_none (c := '(') (by decide) (by decide) (by decide) (by decide) cs
  have hcomment : (lineComment ('(' :: cs)).value = none :=
    value_bind_of_none (value_word_of_ne (by decide) [] cs) _
  rw [front?, nested, value_firstOf_cons, hatom, Option.none_or, value_firstOf_cons, hcomment,
    Option.none_or, value_firstOf_cons, Option.or_eq_none_iff]
  refine ⟨?_, rfl⟩
  rw [Option.eq_none_iff_forall_ne_some]
  rintro ⟨t, rest⟩ hread
  obtain ⟨items, inside, mid, -, hinside, hitems, hclose⟩ := value_parens_iff.1 hread
  cases hinside
  refine h rest ?_
  rw [readAll_eq (Nat.lt_succ_self _) hitems]
  exact hclose

/-- Nothing else is read where no atom is. -/
theorem front?_eq_none {c : Char} (hatom : (anyAtom (c :: cs)).value = none) (hcomment : ';' ≠ c)
    (hlist : '(' ≠ c) : front? (c :: cs) = none := by
  rw [front?, nested, value_firstOf_cons, hatom, Option.none_or, value_firstOf_cons,
    show (lineComment (c :: cs)).value = none from
      value_bind_of_none (value_word_of_ne hcomment [] cs) _,
    Option.none_or, value_firstOf_cons, value_bind_of_none (value_word_of_ne hlist [] cs)]
  rfl

/-! ## Whole texts -/

/-- **A text is read if nothing is left of it.** -/
theorem toOption_parseMany (text : String) : (parseMany text).toOption =
    if (readAll text.toList).2 = [] then some (readAll text.toList).1 else none := by
  obtain ⟨behind, hread, hbehind⟩ := exists_value_many (text.toList.dropWhile isSpace)
  have hskip : readAll (text.toList.dropWhile isSpace) = readAll text.toList := by
    have hspaces : ∀ c ∈ text.toList.takeWhile isSpace, isSpace c = true := fun c hc =>
      List.mem_takeWhile_imp hc
    have hgap := readAll_append_of_spaces hspaces (text.toList.dropWhile isSpace)
    rwa [List.takeWhile_append_dropWhile, eq_comm] at hgap
  rw [hskip] at hread hbehind
  split
  · next hend =>
    rw [toOption_eq_some_iff]
    exact @run_eq_ok _ (fun cs => many (nested (cs.length + 1)) cs) _ _ _ hread (hbehind.trans hend)
  · next hend =>
    rw [Option.eq_none_iff_forall_ne_some]
    intro items hitems
    obtain ⟨rest, hread', hrest⟩ := exists_of_run_eq_ok (toOption_eq_some_iff.1 hitems)
    obtain ⟨rfl, rfl⟩ := Prod.mk.inj (Option.some.inj (hread.symm.trans hread'))
    exact hend (hbehind.symm.trans hrest)

end Interpolants.Sexp
