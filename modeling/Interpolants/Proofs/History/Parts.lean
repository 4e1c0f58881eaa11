import Interpolants.Proofs.Decoding.Rounds
import Interpolants.Proofs.History.Apart

/-!
# Interpolants — the parts of texts whose tokens stand apart

Decoding cuts a text at its let blocks and a let block at its bindings. What it cuts out of an
`Apart` text is such a text again, also if the let block is malformed and only some of its parts are
found.
-/

namespace Interpolants

open Text

/-! ## Pieces of a text -/

/-- A token ends with no closing parenthesis. -/
theorem TokenForm.getLast?_ne {token : List Char} (h : TokenForm token) :
    token.getLast? ≠ some ')' := by
  cases h with
  | bare hne hpipe hdelim =>
    intro hlast
    exact absurd (hdelim _ (List.mem_of_getLast? hlast)) (by decide)
  | quoted hpipe hmark =>
    rw [List.getLast?_append]
    simp

namespace Apart

variable {cs rest : List Char}

/-- What stands behind a delimiter stands apart. -/
theorem tail {c : Char} (h : Apart (c :: cs)) (hc : isDelimiter c = true) : Apart cs := by
  generalize htext : c :: cs = text at h
  cases h with
  | nil => cases htext
  | blank _ h =>
    cases htext
    exact h
  | opening h =>
    cases htext
    exact h
  | closing _ h =>
    cases htext
    exact h
  | token htoken =>
    obtain ⟨c', token, rfl, hc'⟩ := htoken.form.exists_cons
    cases htext
    rw [hc] at hc'
    cases hc'

/-- Behind the blanks at its front, the tokens of a text still stand apart. -/
theorem trimStart (h : Apart cs) : Apart (trimStart cs) := by
  induction cs with
  | nil => exact h
  | cons c cs ih =>
    rw [Text.trimStart, List.dropWhile_cons]
    split
    · next hc => exact ih (h.tail (by rw [isDelimiter, hc]; rfl))
    · exact h

/-- At the start of a text stands a delimiter or a token, if anything. -/
theorem start (h : Apart cs) :
    (∀ c ∈ cs.head?, isDelimiter c = true) ∨
      ∃ token rest, cs = token ++ rest ∧ Ordinary token ∧ Parting rest ∧ Apart rest := by
  cases h with
  | nil => exact Or.inl nofun
  | blank hc =>
    refine Or.inl ?_
    rintro _ ⟨⟩
    rw [isDelimiter, hc]
    rfl
  | opening =>
    refine Or.inl ?_
    rintro _ ⟨⟩
    exact isDelimiter_open
  | closing =>
    refine Or.inl ?_
    rintro _ ⟨⟩
    exact isDelimiter_close
  | token htoken hparting h => exact Or.inr ⟨_, _, rfl, htoken, hparting, h⟩

/-- A closing parenthesis at the end of a text may be left out. -/
theorem dropLast (h : Apart cs) (hlast : cs.getLast? = some ')') : Apart cs.dropLast := by
  induction h with
  | nil => cases hlast
  | @blank c cs hc h ih =>
    cases cs with
    | nil => exact .nil
    | cons c' cs => exact .blank hc (ih hlast)
  | @opening cs h ih =>
    cases cs with
    | nil => exact .nil
    | cons c' cs => exact .opening (ih hlast)
  | @closing cs hparting h ih =>
    cases cs with
    | nil => exact .nil
    | cons c' cs => exact .closing hparting.dropLast (ih hlast)
  | @token token cs htoken hparting h ih =>
    -- the parenthesis is not the token's
    have hne : cs ≠ [] := by
      rintro rfl
      rw [List.append_nil] at hlast
      exact htoken.form.getLast?_ne hlast
    rw [List.getLast?_append_of_ne_nil _ hne] at hlast
    rw [List.dropLast_append_of_ne_nil hne]
    exact .token htoken hparting.dropLast (ih hlast)

/-- **A text in parentheses is cut behind them into texts whose tokens stand apart.** -/
theorem of_closing {depth : Nat} {inside after : List Char} (h : Apart cs) (hdepth : 1 ≤ depth)
    (hclosing : Interpolants.closing depth false cs = some (inside, after)) :
    Apart inside ∧ Apart after ∧ Parting after := by
  induction h generalizing depth inside with
  | nil => cases hclosing
  | @blank c cs hc h ih =>
    obtain ⟨more, rfl, hmore⟩ := (balanced_blank hc).exists_of_closing hdepth hclosing
    obtain ⟨hinside, hafter⟩ := ih hdepth hmore
    exact ⟨.blank hc hinside, hafter⟩
  | @opening cs h ih =>
    obtain ⟨more, rfl, hmore⟩ := exists_of_closing_open hclosing
    obtain ⟨hinside, hafter⟩ := ih (Nat.le_add_left 1 depth) hmore
    exact ⟨.opening hinside, hafter⟩
  | @closing cs hparting h ih =>
    obtain ⟨rfl, rfl⟩ | ⟨hmany, more, rfl, hmore⟩ := exists_of_closing_close hclosing
    · -- this is the parenthesis that is looked for
      exact ⟨.closing parting_nil .nil, h, hparting⟩
    · obtain ⟨hinside, hafter⟩ := ih (Nat.le_sub_one_of_lt hmany) hmore
      rw [← append_of_closing hmore] at hparting
      exact ⟨.closing hparting.left hinside, hafter⟩
  | @token token cs htoken hparting h ih =>
    obtain ⟨more, rfl, hmore⟩ := htoken.form.balanced.exists_of_closing hdepth hclosing
    obtain ⟨hinside, hafter⟩ := ih hdepth hmore
    -- the token ends before the rest, which starts as the inside does
    rw [← append_of_closing hmore] at hparting
    exact ⟨.token htoken hparting.left hinside, hafter⟩

/-- In a list that is cut out of a text and in what follows it, tokens stand apart. -/
theorem of_enclosed {found after : List Char} (h : Apart ('(' :: cs))
    (hfound : enclosed ('(' :: cs) = some (found, after)) :
    Apart found ∧ Apart after ∧ Parting after := by
  obtain ⟨inside, rfl, hinside⟩ := exists_of_enclosed hfound
  obtain ⟨hapart, hafter⟩ := (h.tail isDelimiter_open).of_closing (Nat.le_refl 1) hinside
  exact ⟨.opening hapart, hafter⟩

end Apart

/-! ## Walking through a text -/

namespace Cursor

variable {c c' : Cursor}

/-- Behind a parenthesis that has been taken, tokens still stand apart. -/
theorem apart_of_eat? {wanted : Char} (h : Apart c.rest) (hwanted : isDelimiter wanted = true)
    (heat : c.eat? wanted = some c') : Apart c'.rest := by
  have hrest := h.trimStart
  rw [rest_of_eat? heat] at hrest
  exact hrest.tail hwanted

/-- Behind a parenthesis that was expected, tokens still stand apart. -/
theorem apart_of_expect {wanted : Char} (h : Apart c.rest) (hwanted : isDelimiter wanted = true)
    (hexpect : c.expect wanted = .ok c') : Apart c'.rest :=
  apart_of_eat? h hwanted (eat?_of_expect hexpect)

/-- A token that is taken is ordinary, and the tokens behind it stand apart. -/
theorem apart_of_token {token : List Char} (h : Apart c.rest) (htoken : c.token = .ok (token, c')) :
    Ordinary token ∧ Apart c'.rest := by
  rcases h.trimStart.start with hdelim | ⟨token', rest, heq, hordinary, hparting, hrest⟩
  · rw [token_of_delimiter hdelim] at htoken
    cases htoken
  · rw [token_of_form hordinary.form hparting.boundary heq] at htoken
    cases htoken
    exact ⟨hordinary, hrest⟩

/-- The text of a term that is taken and the text behind it have tokens that stand apart. -/
theorem apart_of_span {term : List Char} (h : Apart c.rest) (hspan : c.span = .ok (term, c')) :
    Apart term ∧ Apart c'.rest := by
  rcases span_cases hspan with ⟨more, after, hopen, hfound, rfl⟩ | ⟨-, htoken⟩
  · obtain ⟨hterm, hrest, -⟩ := Apart.of_enclosed (hopen ▸ h.trimStart) hfound
    exact ⟨hterm, hrest⟩
  · obtain ⟨hordinary, hrest⟩ := apart_of_token h htoken
    have hterm := Apart.token hordinary parting_nil .nil
    rw [List.append_nil] at hterm
    exact ⟨hterm, hrest⟩

end Cursor

/-! ## Let blocks -/

namespace LetBlock

variable {c c' : Cursor}

/-- A binding that is taken binds no placeholder, to a text whose tokens stand apart. -/
theorem apart_of_binding {entry : String × List Char} (h : Apart c.rest)
    (hbinding : binding c = .ok (entry, c')) :
    (¬ Decode.IsPlaceholder entry.1 ∧ Apart entry.2) ∧ Apart c'.rest := by
  unfold binding at hbinding
  obtain ⟨c₁, hopen, hbinding⟩ := except_bind_eq_ok_iff.1 hbinding
  obtain ⟨⟨name, c₂⟩, hname, hbinding⟩ := except_bind_eq_ok_iff.1 hbinding
  obtain ⟨⟨bound, c₃⟩, hbound, hbinding⟩ := except_bind_eq_ok_iff.1 hbinding
  cases hbinding
  obtain ⟨hordinary, h₂⟩ :=
    Cursor.apart_of_token (Cursor.apart_of_expect h isDelimiter_open hopen) hname
  obtain ⟨hterm, h₃⟩ := Cursor.apart_of_span h₂ hbound
  exact ⟨⟨hordinary.name, hterm⟩, h₃⟩

/-- The tokens of a body stand apart. -/
theorem apart_of_bodyAt {body : List Char} (h : Apart c.rest) (hbody : bodyAt c = .ok body) :
    Apart body := by
  unfold bodyAt at hbody
  split at hbody
  · next hlast =>
    cases hbody
    exact h.dropLast hlast
  · cases hbody

/-- The bindings and the body of a let block are texts whose tokens stand apart, and bind no
placeholder. -/
theorem clear_bindingsAt (limit : Nat) (h : Apart c.rest) :
    Holds (fun entry => ¬ Decode.IsPlaceholder entry.1 ∧ Apart entry.2) Apart
      (bindingsAt limit c) := by
  refine holds_bindingsAt (fun c => Apart c.rest) (fun hc hentry => ?_)
    (fun hc heat hbody => ?_) limit h
  · obtain ⟨hclear, hbehind⟩ := apart_of_binding hc hentry
    exact ⟨hclear, fun c₂ hclose => Cursor.apart_of_expect hbehind isDelimiter_close hclose⟩
  · exact apart_of_bodyAt (Cursor.apart_of_eat? hc isDelimiter_close heat) hbody

/-- **The parts of a let block stand apart**, also those before a flaw, and no name that is bound is
a placeholder. -/
theorem clear_ofText {block : List Char} (h : Apart block) :
    Holds (fun entry => ¬ Decode.IsPlaceholder entry.1 ∧ Apart entry.2) Apart (ofText block) := by
  unfold ofText
  split
  · exact holds_error _
  · next c hheader =>
    unfold header at hheader
    obtain ⟨c₁, hopen, hheader⟩ := except_bind_eq_ok_iff.1 hheader
    obtain ⟨⟨word, c₂⟩, hword, hentries⟩ := except_bind_eq_ok_iff.1 hheader
    have h₁ : Apart c₁.rest := Cursor.apart_of_expect h isDelimiter_open hopen
    exact clear_bindingsAt _
      (Cursor.apart_of_expect (Cursor.apart_of_token h₁ hword).2 isDelimiter_open hentries)

end LetBlock

end Interpolants
