import Interpolants.Proofs.Decoding.Table
import Interpolants.Proofs.Truncation.Passage

/-!
# Interpolants — truncated terms

A text that starts with an opening parenthesis is accepted only if nothing but blanks stands behind
the parenthesis that closes it (`shut_of_decode`). So no text is accepted that has lost its last
closing parenthesis, wherever it was cut.

## The architecture

* **`Decode.blank_of_placeholder`** — the text starts with a let block. From the first round on it
  starts with a placeholder, which is all that it may hold.
* **`Decode.Resolved.shut`** — the text starts with an application. No round moves the parenthesis
  that closes it, since a let block closes all the parentheses it opens and its placeholder has
  none.
-/

namespace Interpolants

open Text

/-! ## The names of an outermost text -/

/-- No declared name holds the start of a placeholder. -/
def Registry.Unnumbered (declared : Registry) : Prop :=
  ∀ x ∈ declared.entries, ¬ "#let".toList <:+: x.name.toList

section

variable {declared : Registry} {blocks : Bindings} {e : Expr}

/-- Outside let blocks only placeholders are read as leaves that hold the start of one. -/
theorem exists_key_of_leaf (hdeclared : declared.Unnumbered) (hblocks : Decode.Numbered blocks)
    {token : List Char} (hbare : token.head? ≠ some '|') (hkey : "#let".toList <:+: token)
    (h : LeafRead ⟨[], blocks, declared⟩ token e) :
    ∃ n < blocks.length, token = "#let".toList ++ Decimal.digits n := by
  cases h with
  | yes htoken | no htoken =>
    -- literals and numerals have no number sign
    rw [htoken] at hkey
    exact absurd hkey (by decide)
  | numeral hnumeral =>
    exact absurd (List.all_eq_true.1 hnumeral '#' (hkey.subset (by decide))) (by decide)
  | name _ _ _ hfind =>
    rw [unquote_bare hbare] at hfind
    unfold Names.find? at hfind
    rw [List.lookup_nil] at hfind
    dsimp only at hfind
    split at hfind
    · next hlookup =>
      obtain ⟨n, hn, heq⟩ := hblocks.exists_number hlookup
      exact ⟨n, hn, String.ofList_injective heq⟩
    · obtain ⟨x, hx, -⟩ := Option.map_eq_some_iff.1 hfind
      -- no declared variable is called so
      have hname : x.name.toList = token := by
        rw [Registry.name_of_find? hx, String.toList_ofList]
      rw [← hname] at hkey
      exact absurd hkey (hdeclared x (List.mem_of_find?_eq_some hx))

/-- A text that starts with a placeholder is read as a placeholder, with blanks behind. -/
theorem exists_number_of_wholeTerm (hdeclared : declared.Unnumbered)
    (hblocks : Decode.Numbered blocks) {text more : List Char} {n : Nat}
    (htext : trimStart text = "#let".toList ++ Decimal.digits n ++ more)
    (h : wholeTerm ⟨[], blocks, declared⟩ text = .ok e) :
    ∃ m < blocks.length,
      Decimal.digits n ++ more.takeWhile (fun c => !isDelimiter c) = Decimal.digits m ∧
        ∀ c ∈ more.dropWhile (fun c => !isDelimiter c), isBlank c = true := by
  obtain ⟨c, hterm, hblank⟩ := exists_term_of_wholeTerm h
  have hrest : (Cursor.ofText text).skipBlanks.rest
      = '#' :: ("let".toList ++ Decimal.digits n ++ more) := htext
  have htoken := Cursor.token_of_bare hrest (by decide) (by decide)
  have hkey : '#' :: ("let".toList ++ Decimal.digits n ++ more)
      = "#let".toList ++ Decimal.digits n ++ more := rfl
  rw [hkey, takeWhile_key, dropWhile_key] at htoken
  have hstart : ∀ {cs : List Char}, trimStart (Cursor.ofText text).rest ≠ '(' :: cs := by
    intro cs hopen
    cases hrest.symm.trans hopen
  -- the text starts with a number sign, so it is a token and not a list
  cases termRead_of_term hterm with
  | leaf _ htoken' hleaf =>
    cases htoken.symm.trans htoken'
    rw [List.append_assoc] at hleaf
    obtain ⟨m, hm, heq⟩ :=
      exists_key_of_leaf hdeclared hblocks (by simp) (List.prefix_append _ _).isInfix hleaf
    exact ⟨m, hm, List.append_cancel_left heq, hblank⟩
  | leastWord hopen | application hopen => exact absurd hopen hstart

/-- Over names without the start of a placeholder no torn token stands for anything. -/
theorem refuses_torn (hdeclared : declared.Unnumbered) (hblocks : Decode.Numbered blocks) :
    Names.Refuses ⟨[], blocks, declared⟩ := by
  intro token e htorn hleaf
  obtain ⟨n, -, rfl⟩ := exists_key_of_leaf hdeclared hblocks htorn.bare htorn.key hleaf
  exact (plain_key htorn.pipe).2 rfl

end

/-! ## The first pass -/

/-- More digits make no number smaller. -/
theorem eq_nil_of_digits_append {m n : Nat} {more : List Char} (hle : m ≤ n)
    (h : Decimal.digits n ++ more = Decimal.digits m) : more = [] := by
  have hvalue := congrArg Decimal.value h
  rw [Decimal.value_digits, Decimal.value, Nat.ofDigitChars_append,
    Nat.ofDigitChars_eq_ofDigitChars_zero, show Nat.ofDigitChars 10 (Decimal.digits n) 0 = n from
    Decimal.value_digits n] at hvalue
  cases more with
  | nil => rfl
  | cons c more =>
    -- the digits before count ten times as much, which only zero can afford
    have hpow : 10 * n ≤ 10 ^ (c :: more).length * n := by
      rw [List.length_cons, Nat.pow_succ']
      exact Nat.mul_le_mul_right n (Nat.le_mul_of_pos_right 10 (Nat.pow_pos (by decide)))
    obtain rfl : m = n := by omega
    exact absurd (List.append_right_eq_self.1 h) (List.cons_ne_nil c more)

namespace Decode

section

variable {declared : Registry} {scope blocks blocks' : Bindings} {text' : List Char} {e : Expr}

/-- What stands in front of all let blocks stays, and a round leaves its mark behind it. -/
theorem Resolved.front {front rest : List Char} (hfront : Sealed front)
    (h : Resolved declared scope (front ++ rest) blocks text' blocks') :
    (text' = front ++ rest ∧ blocks' = blocks) ∨ ∃ more, text' = front ++ more ∧ '#' ∈ more := by
  generalize htext : front ++ rest = text at h
  induction h generalizing rest with
  | done => exact .inl ⟨rfl, rfl⟩
  | @round text before here found after text' body blocks later blocks' hsplit _ _ _ ih =>
    rw [← htext, hfront] at hsplit
    obtain ⟨⟨between, _⟩, -, heq⟩ := Option.map_eq_some_iff.1 hsplit
    cases heq
    have hhash : '#' ∈ between ++ (placeholder later ++ after) := by simp [placeholder]
    refine .inr ?_
    rcases ih (List.append_assoc front between _).symm with ⟨rfl, -⟩ | hmore
    · exact ⟨_, List.append_assoc .., hhash⟩
    · exact hmore

/-- **A text that starts with a let block** is accepted only with nothing but blanks behind the
placeholder of the block. -/
theorem blank_of_placeholder {blanks after : List Char} {body : Expr} {later : Bindings}
    (hdeclared : declared.Unnumbered) (hblanks : ∀ c ∈ blanks, isBlank c = true)
    (hentered : Numbered ((String.ofList (placeholder later), body) :: later))
    (hresolved : Resolved declared [] (blanks ++ (placeholder later ++ after))
      ((String.ofList (placeholder later), body) :: later) text' blocks')
    (h : wholeTerm ⟨[], blocks', declared⟩ text' = .ok e) : ∀ c ∈ after, isBlank c = true := by
  have hblocks' : Numbered blocks' := hresolved.numbered hentered
  have hsealed : Sealed (blanks ++ placeholder later) := by
    refine .of_not_mem fun hmem => ?_
    rcases List.mem_append.1 hmem with hmem | hmem
    · exact absurd (hblanks _ hmem) (by decide)
    · exact absurd (plain_key hmem).1 (by decide)
  -- what is read in the end is one token, and this one starts with the placeholder
  have hread : ∀ more, text' = blanks ++ placeholder later ++ more → ∃ m < blocks'.length,
      Decimal.digits later.length ++ more.takeWhile (fun c => !isDelimiter c) = Decimal.digits m ∧
        ∀ c ∈ more.dropWhile (fun c => !isDelimiter c), isBlank c = true := by
    rintro more rfl
    refine exists_number_of_wholeTerm hdeclared hblocks' ?_ h
    rw [List.append_assoc, trimStart_append hblanks]
    exact (tokenForm_key later.length).trimStart more
  rw [← List.append_assoc] at hresolved
  rcases hresolved.front hsealed with ⟨htext', rfl⟩ | ⟨more, htext', hhash⟩
  · -- no other block was found, so the placeholder is the last that was entered
    obtain ⟨m, hm, hdigits, hblank⟩ := hread after htext'
    have hnil := eq_nil_of_digits_append (Nat.le_of_lt_succ hm) hdigits
    have happend := List.takeWhile_append_dropWhile (p := fun c => !isDelimiter c) (l := after)
    rw [hnil, List.nil_append] at happend
    rwa [happend] at hblank
  · obtain ⟨m, -, hdigits, hblank⟩ := hread more htext'
    rw [← List.takeWhile_append_dropWhile (p := fun c => !isDelimiter c) (l := more)] at hhash
    rcases List.mem_append.1 hhash with hhash | hhash
    · have hmem : '#' ∈ Decimal.digits m := by
        rw [← hdigits]
        exact List.mem_append_right _ hhash
      exact absurd (List.all_eq_true.1 (Decimal.isNumeral_digits m) _ hmem) (by decide)
    · exact absurd (hblank _ hhash) (by decide)

/-- Where a let block stands in a text does not change where the parenthesis in front is closed. -/
theorem shut_of_round {before found after : List Char} {n : Nat} (hbefore : Leads before)
    (hfound : Balanced found)
    (h : Shut (before ++ ("#let".toList ++ Decimal.digits n ++ after))) :
    Shut (before ++ (found ++ after)) := by
  obtain ⟨inside, rest, hclosing, hblank⟩ := h
  rcases hbefore 1 (Nat.le_refl 1) with ⟨inside', more, rfl, hends⟩ | ⟨depth, hdepth, hpasses⟩
  · -- the placeholder would stand behind the closing parenthesis
    rw [hends, Option.some.injEq, Prod.mk.injEq] at hclosing
    have hhash : '#' ∈ rest := by
      rw [← hclosing.2]
      simp
    exact absurd (hblank '#' hhash) (by decide)
  · rw [hpasses, (tokenForm_key n).balanced depth hdepth, map_before_map_before] at hclosing
    obtain ⟨⟨front, _⟩, hfront, heq⟩ := Option.map_eq_some_iff.1 hclosing
    cases heq
    refine ⟨before ++ found ++ front, _, ?_, hblank⟩
    rw [hpasses, hfound depth hdepth, map_before_map_before, hfront]
    rfl

/-- **A text that starts with an application** is accepted only if it ends with it, through all
rounds. -/
theorem Resolved.shut {blanks cs : List Char} (hdeclared : declared.Unnumbered)
    (hblanks : ∀ c ∈ blanks, isBlank c = true) (hblocks : Numbered blocks)
    (hscanned : Scanned true cs) (hstarts : startsLet ('(' :: cs) = false)
    (hresolved : Resolved declared [] (blanks ++ '(' :: cs) blocks text' blocks')
    (h : wholeTerm ⟨[], blocks', declared⟩ text' = .ok e) : Shut cs := by
  have hsealed : Sealed blanks := .of_not_mem fun hmem => absurd (hblanks _ hmem) (by decide)
  generalize htext : blanks ++ '(' :: cs = text at hresolved
  induction hresolved generalizing cs with
  | done =>
    subst htext
    have hopen : trimStart (blanks ++ '(' :: cs) = '(' :: cs := by
      rw [trimStart_append hblanks, trimStart_of_not_isBlank (by decide)]
    exact shut_of_wholeTerm (refuses_torn hdeclared hblocks) hopen hscanned h
  | @round text before here found after text' body blocks later blocks' hcut hfound hblock _ ih =>
    subst htext
    obtain ⟨front, rfl, hopened⟩ := hsealed.exists_of_splitAtLet hcut
    obtain ⟨between, rfl, hsplit⟩ := exists_of_splitAtLet_cons hstarts hopened
    obtain ⟨more, rfl⟩ := exists_cons_of_splitAtLet hsplit
    obtain ⟨hhere, hleads, hreplaced⟩ := hscanned.of_splitAtLet hsplit
    have hafter : Scanned true after := by
      obtain ⟨inside, -, hinside⟩ := exists_of_enclosed hfound
      exact (hhere.tail isDelimiter_open).of_closing (Nat.le_refl 1) hinside
    -- the word `let` has not come closer to the first parenthesis
    have hstarts' : startsLet ('(' :: (between ++ (placeholder later ++ after))) = false := by
      rw [Bool.eq_false_iff]
      intro hmark
      rw [← append_of_splitAtLet hsplit, ← List.cons_append, Bool.eq_false_iff] at hstarts
      exact hstarts (startsLet_of_hash hmark _)
    have hshut :=
      ih (numbered_of_round hblocks hblock) (hreplaced later.length after hafter) hstarts' h
      (List.append_assoc blanks ('(' :: between) _).symm
    have hcs := (text_of_round hsplit hfound).1
    rw [hcs]
    exact shut_of_round hleads (balanced_of_enclosed hfound) hshut

end

end Decode

/-! ## Accepted texts -/

section

variable {declared : Registry} {e : Expr}

/-- A text is decoded in two passes. -/
theorem exists_passes_of_decode {text : String} (h : decode declared text = .ok e) :
    ∃ text' blocks, Decode.Resolved declared [] text.toList [] text' blocks ∧
      wholeTerm ⟨[], blocks, declared⟩ text' = .ok e := by
  have hrun : outcome (Decode.inScope declared [] text.toList) [] = (.ok e, _) := Prod.ext h rfl
  rw [Decode.inScope_eq] at hrun
  obtain ⟨text', blocks, hresolve, hplain⟩ := outcome_bind_eq_ok_iff.1 hrun
  rw [Decode.outcome_plain, Prod.mk.injEq] at hplain
  exact ⟨text', blocks, Decode.resolved_of_resolveAll hresolve, hplain.1⟩

/-- **An accepted text that starts with a parenthesis ends where it is closed**, but for blanks. -/
theorem shut_of_decode (hdeclared : declared.Unnumbered) {text : String} {cs : List Char}
    (hscanned : Scanned true text.toList) (hopen : trimStart text.toList = '(' :: cs)
    (h : decode declared text = .ok e) : Shut cs := by
  obtain ⟨text', blocks, hresolved, hterm⟩ := exists_passes_of_decode h
  have hblanks : ∀ c ∈ text.toList.takeWhile isBlank, isBlank c = true :=
    fun c hc => List.mem_takeWhile_imp hc
  have htext : text.toList = text.toList.takeWhile isBlank ++ '(' :: cs := by
    rw [← hopen]
    exact List.takeWhile_append_dropWhile.symm
  have hhere : Scanned true ('(' :: cs) := by
    rw [← hopen]
    exact piecewise_scanned.trimStart hscanned
  have hcs : Scanned true cs := hhere.tail isDelimiter_open
  rw [htext] at hresolved
  -- the parenthesis opens a let block or an application
  cases hstarts : startsLet ('(' :: cs) with
  | false =>
    exact hresolved.shut hdeclared hblanks Decode.numbered_nil hcs hstarts hterm
  | true =>
    have hsealed : Sealed (text.toList.takeWhile isBlank) :=
      .of_not_mem fun hmem => absurd (hblanks _ hmem) (by decide)
    have hcut : splitAtLet (text.toList.takeWhile isBlank ++ '(' :: cs)
        = some (text.toList.takeWhile isBlank, '(' :: cs) := by
      rw [hsealed, splitAtLet_of_startsLet hstarts, Option.map_some, List.append_nil]
    cases hresolved with
    | done hnone => cases hcut.symm.trans hnone
    | round hsplit hfound hblock hrest =>
      cases hcut.symm.trans hsplit
      obtain ⟨inside, rfl, hinside⟩ := exists_of_enclosed hfound
      have hentered := Decode.numbered_of_round Decode.numbered_nil hblock
      exact ⟨inside, _, hinside, Decode.blank_of_placeholder hdeclared hblanks hentered hrest hterm⟩

/-- No text without a term is accepted. -/
theorem trimStart_ne_nil_of_decode {text : String} (h : decode declared text = .ok e) :
    trimStart text.toList ≠ [] := by
  intro hnil
  obtain ⟨text', blocks, hresolved, hterm⟩ := exists_passes_of_decode h
  have hblank : ∀ c ∈ text.toList, isBlank c = true := List.dropWhile_eq_nil_iff.1 hnil
  have hsealed : Sealed text.toList := .of_not_mem fun hmem => absurd (hblank _ hmem) (by decide)
  cases hresolved with
  | done =>
    have hrefused := wholeTerm_blank ⟨[], [], declared⟩ hblank
    rw [hterm] at hrefused
    cases hrefused
  | round hsplit => cases (splitAtLet_eq_none hsealed.inert).symm.trans hsplit

/-- More text does not change where a parenthesis is closed. -/
theorem closing_append {depth : Nat} {quoted : Bool} {cs inside rest : List Char}
    (h : closing depth quoted cs = some (inside, rest)) (more : List Char) :
    closing depth quoted (cs ++ more) = some (inside, rest ++ more) := by
  replace h := closingRead_of_closing h
  induction h with
  | last hlast => exact closing_last hlast _
  | more hgoes _ ih =>
    rw [List.cons_append, closing, if_neg hgoes, ih]
    rfl

/-- **No truncated term is accepted.** An accepted text that starts with a parenthesis and whose
pipes stand around quoted symbols is refused as soon as its last closing parenthesis is cut off,
wherever the cut falls. -/
theorem decode_truncated (hdeclared : declared.Unnumbered) {kept lost : String}
    (hpipes : Delimited true (kept ++ lost).toList)
    (hopen : (trimStart (kept ++ lost).toList).head? = some '(')
    (h : decode declared (kept ++ lost) = .ok e) (hlost : ')' ∈ lost.toList) :
    ∃ err, decode declared kept = .error err := by
  cases hkept : decode declared kept with
  | error err => exact ⟨err, rfl⟩
  | ok e' =>
    exfalso
    rw [String.toList_append] at hpipes hopen
    obtain ⟨c, cs, hcs⟩ := List.exists_cons_of_ne_nil (trimStart_ne_nil_of_decode hkept)
    -- what is kept starts as the text does
    have htext : trimStart (kept.toList ++ lost.toList) = c :: (cs ++ lost.toList) := by
      rw [trimStart] at hcs
      rw [trimStart, List.dropWhile_append, hcs]
      rfl
    rw [htext, List.head?_cons, Option.some.injEq] at hopen
    subst hopen
    obtain ⟨inside, rest, hclosing, -⟩ := shut_of_decode hdeclared hpipes.scanned hcs hkept
    have hwhole : Scanned true (kept ++ lost).toList := by
      rw [← List.append_nil (_ ++ _)] at hpipes
      rw [String.toList_append]
      exact hpipes.scanned
    rw [← String.toList_append] at htext
    obtain ⟨inside', rest', hclosing', hblank⟩ := shut_of_decode hdeclared hwhole htext h
    rw [closing_append hclosing, Option.some.injEq, Prod.mk.injEq] at hclosing'
    rw [← hclosing'.2] at hblank
    exact absurd (hblank ')' (List.mem_append_right rest hlost)) (by decide)

/-- A text with a let block in a bound term, cut inside a quoted symbol. -/
theorem decode_truncated_quoted :
    let declared := Registry.empty.insert ⟨"a b", .integer⟩
    let kept := " (let ((x (let ((y |a"
    let lost := " b|)) (+ y 1)))) (<= 0 x))"
    declared.Unnumbered ∧ Delimited true (kept ++ lost).toList ∧
      (trimStart (kept ++ lost).toList).head? = some '(' ∧
      decode declared (kept ++ lost) = .ok (.compare .le (.integer 0)
        (.arith .plus (.var ⟨"a b", .integer⟩) (.integer 1))) ∧
      ')' ∈ lost.toList ∧ ∃ err, decode declared kept = .error err := by
  intro declared kept lost
  have hdeclared : declared.Unnumbered := by
    intro x hx
    rw [List.mem_singleton.1 hx]
    decide
  have hsymbol : Delimited true ('|' :: "a b".toList ++ '|' :: ")) (+ y 1)))) (<= 0 x))".toList) :=
    .symbol (by decide) (by decide) (.of_not_mem (by decide))
  have hpipes : Delimited true (kept ++ lost).toList := by
    have hspelled : (kept ++ lost).toList = " (let ((x (let ((y".toList ++ ' ' ::
        ('|' :: "a b".toList ++ '|' :: ")) (+ y 1)))) (<= 0 x))".toList) := by decide
    rw [hspelled]
    exact .prepend (by decide) (by decide) hsymbol
  have htext : decode declared (kept ++ lost) = .ok (.compare .le (.integer 0)
      (.arith .plus (.var ⟨"a b", .integer⟩) (.integer 1))) :=
    toOption_eq_some_iff.1 (by decide +kernel)
  exact ⟨hdeclared, hpipes, by decide, htext, by decide,
    decode_truncated hdeclared hpipes (by decide) htext (by decide)⟩

end

end Interpolants
