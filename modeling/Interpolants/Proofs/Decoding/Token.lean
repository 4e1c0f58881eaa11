import Interpolants.Proofs.Decoding.Scanning

/-!
# Interpolants — tokens in a text

A token is a run of characters that all scans of a text treat as one piece: `TokenForm`. It is bare,
or stands between pipes, and then it may hold blanks and parentheses. A token before a boundary is
read as itself (`Cursor.token_of_form`), and whatever is read as a token has been read in one of two
ways (`Cursor.TokenRead`).
-/

namespace Interpolants

open Text

/-! ## Tokens -/

/-- What a token looks like. -/
inductive TokenForm : List Char → Prop where
  | bare {cs : List Char} (hne : cs ≠ []) (hpipe : '|' ∉ cs)
      (hdelim : ∀ c ∈ cs, isDelimiter c = false) : TokenForm cs
  | quoted {cs : List Char} (hpipe : '|' ∉ cs) (hmark : ¬ Marked cs) :
      TokenForm ('|' :: cs ++ ['|'])

/-- The place behind a token: the end of the text, or a character that no token goes on with. -/
def Boundary (rest : List Char) : Prop :=
  ∀ c ∈ rest.head?, isDelimiter c = true

theorem isDelimiter_open : isDelimiter '(' = true := by decide

theorem isDelimiter_close : isDelimiter ')' = true := by decide

/-- What does not end a token is neither a blank nor a parenthesis. -/
theorem ne_of_not_isDelimiter {c : Char} (h : isDelimiter c = false) :
    isBlank c = false ∧ c ≠ '(' ∧ c ≠ ')' := by
  simpa [isDelimiter, and_assoc] using h

namespace TokenForm

variable {token : List Char}

/-- A token has a first character, which ends no token. -/
theorem exists_cons (h : TokenForm token) : ∃ c cs, token = c :: cs ∧ isDelimiter c = false := by
  cases h with
  | bare hne _ hdelim =>
    obtain ⟨c, cs, rfl⟩ := List.exists_cons_of_ne_nil hne
    exact ⟨c, cs, rfl, hdelim c (by simp)⟩
  | quoted => exact ⟨'|', _, rfl, by decide⟩

theorem ne_nil (h : TokenForm token) : token ≠ [] := by
  obtain ⟨c, cs, rfl, -⟩ := h.exists_cons
  exact List.cons_ne_nil c cs

/-- No let block starts in a token. -/
theorem inert (h : TokenForm token) : Inert token := by
  cases h with
  | bare _ _ hdelim =>
    refine Inert.of_not_mem fun hmem => ?_
    exact absurd (hdelim _ hmem) (by decide)
  | quoted _ hmark => exact ((Sealed.quoted hmark).cons_of_ne (by decide)).inert

/-- A token closes the parentheses that it has, since they stand in quotes. -/
theorem balanced (h : TokenForm token) : Balanced token := by
  cases h with
  | bare _ hpipe hdelim =>
    refine Balanced.of_plain fun c hc => ?_
    obtain ⟨-, hopen, hclose⟩ := ne_of_not_isDelimiter (hdelim c hc)
    exact ⟨hopen, hclose, fun heq => hpipe (heq ▸ hc)⟩
  | quoted hpipe _ => exact Balanced.quoted hpipe

/-- Only the word `let` itself makes an opening parenthesis start a let block. -/
theorem inert_open (h : TokenForm token) (hne : token ≠ "let".toList) : Inert ('(' :: token) := by
  refine h.inert.cons fun rest hrest => ?_
  unfold startsLet
  split
  · next d tail heq =>
    rw [List.cons.injEq] at heq
    have heq := heq.2
    cases h with
    | quoted => simp at heq
    | bare hne' _ hdelim =>
      -- a token of one or two letters leaves the rest of the word to the text behind it, which is
      -- calm; one of three is the word, and a longer one goes on with no delimiter
      rcases token with _ | ⟨c₁, _ | ⟨c₂, _ | ⟨c₃, _ | ⟨c₄, token⟩⟩⟩⟩
      · exact absurd rfl hne'
      · rw [List.cons_append, List.nil_append, List.cons.injEq] at heq
        exact absurd rfl (hrest 'e' (by rw [heq.2]; rfl)).2.1
      · simp only [List.cons_append, List.nil_append, List.cons.injEq] at heq
        exact absurd rfl (hrest 't' (by rw [heq.2.2]; rfl)).2.2
      · simp only [List.cons_append, List.nil_append, List.cons.injEq] at heq
        obtain ⟨rfl, rfl, rfl, -⟩ := heq
        exact absurd rfl hne
      · simp only [List.cons_append, List.cons.injEq] at heq
        obtain ⟨rfl, rfl, rfl, rfl, -⟩ := heq
        obtain ⟨hblank, hopen, -⟩ := ne_of_not_isDelimiter (hdelim c₄ (by simp))
        simp [hblank, hopen]
  · rfl

end TokenForm

/-! ## Reading tokens -/

/-- A quoted token is what stands between its pipes. -/
theorem unquote_quoted (cs : List Char) : unquote ('|' :: (cs ++ ['|'])) = String.ofList cs := by
  show String.ofList (if (cs ++ ['|']).getLast? = some '|' then (cs ++ ['|']).dropLast else _) = _
  rw [if_pos (by simp), List.dropLast_concat]

/-- Any other token is taken as it is. -/
theorem unquote_bare {token : List Char} (h : token.head? ≠ some '|') :
    unquote token = String.ofList token := by
  unfold unquote
  split
  · exact absurd rfl h
  · rfl

theorem trimStart_of_not_isBlank {c : Char} (h : isBlank c = false) (cs : List Char) :
    trimStart (c :: cs) = c :: cs := by
  rw [trimStart, List.dropWhile_cons_of_neg (by simp [h])]

/-- Blanks in front of a text are dropped. -/
theorem trimStart_append {blanks : List Char} (h : ∀ c ∈ blanks, isBlank c = true)
    (cs : List Char) : trimStart (blanks ++ cs) = trimStart cs :=
  List.dropWhile_append_of_pos h

/-- There are no blanks in front of a token. -/
theorem TokenForm.trimStart {token : List Char} (h : TokenForm token) (rest : List Char) :
    trimStart (token ++ rest) = token ++ rest := by
  obtain ⟨c, cs, rfl, hc⟩ := h.exists_cons
  exact trimStart_of_not_isBlank (ne_of_not_isDelimiter hc).1 _

/-- A bare token is taken up to its end. -/
theorem takeWhile_bare {cs rest : List Char} (hdelim : ∀ c ∈ cs, isDelimiter c = false)
    (hrest : Boundary rest) : (cs ++ rest).takeWhile (fun c => !isDelimiter c) = cs ∧
      (cs ++ rest).dropWhile (fun c => !isDelimiter c) = rest := by
  have hcs : ∀ c ∈ cs, (!isDelimiter c) = true := fun c hc => by rw [hdelim c hc]; rfl
  rw [List.takeWhile_append_of_pos hcs, List.dropWhile_append_of_pos hcs]
  cases rest with
  | nil => simp
  | cons c rest =>
    have hc : isDelimiter c = true := hrest c rfl
    simp [hc]

namespace Cursor

/-- A character that stands behind blanks is eaten with them. -/
theorem eat?_of_head {c : Cursor} {wanted : Char} {rest : List Char}
    (h : trimStart c.rest = wanted :: rest) : c.eat? wanted = some (c.goTo rest) := by
  unfold eat?
  rw [skipBlanks_rest, h]
  exact if_pos rfl

/-- No other character is eaten. -/
theorem eat?_of_ne {c : Cursor} {wanted : Char}
    (h : ∀ next ∈ (trimStart c.rest).head?, next ≠ wanted) : c.eat? wanted = none := by
  unfold eat?
  rw [skipBlanks_rest]
  cases hrest : trimStart c.rest with
  | nil => rfl
  | cons next rest => exact if_neg (h next (by rw [hrest]; rfl))

/-- An expected character that is there is passed. -/
theorem expect_of_head {c : Cursor} {wanted : Char} {rest : List Char}
    (h : trimStart c.rest = wanted :: rest) : c.expect wanted = .ok (c.goTo rest) := by
  rw [expect, eat?_of_head h]

/-- One that is not there is an error. -/
theorem expect_of_ne {c : Cursor} {wanted : Char}
    (h : ∀ next ∈ (trimStart c.rest).head?, next ≠ wanted) :
    c.expect wanted = .error (c.skipBlanks.flaw (.expected wanted)) := by
  rw [expect, eat?_of_ne h]

/-- **A token before a boundary is read as itself.** -/
theorem token_of_form {c : Cursor} {token rest : List Char} (htoken : TokenForm token)
    (hrest : Boundary rest) (h : trimStart c.rest = token ++ rest) :
    c.token = .ok (token, c.goTo rest) := by
  unfold Cursor.token
  rw [skipBlanks_rest, h]
  cases htoken with
  | quoted hpipe hmark =>
    rename_i cs
    -- the characters up to the next pipe are those of the symbol
    obtain ⟨htake, hdrop⟩ := span_of_not_mem hpipe rest
    rw [show '|' :: cs ++ ['|'] ++ rest = '|' :: (cs ++ '|' :: rest) from by simp]
    simp only [htake, hdrop]
    rw [if_pos (by simp)]
    rfl
  | bare hne hpipe hdelim =>
    -- the run of characters ends at the boundary
    obtain ⟨htake, hdrop⟩ := takeWhile_bare hdelim hrest
    obtain ⟨ch, more, rfl⟩ := List.exists_cons_of_ne_nil hne
    split
    · next heq =>
      rw [List.cons_append, List.cons.injEq] at heq
      exact absurd (heq.1 ▸ List.mem_cons_self) hpipe
    · rw [htake, hdrop]

/-- A symbol runs up to the pipe that closes it. -/
theorem token_of_pipe {c : Cursor} {quoted : List Char} (h : c.skipBlanks.rest = '|' :: quoted) :
    c.token = if quoted.contains '|' then
      .ok ('|' :: quoted.takeWhile (· != '|') ++ ['|'],
        c.goTo ((quoted.dropWhile (· != '|')).drop 1))
    else .error (c.skipBlanks.flaw .unterminatedQuote) := by
  rw [Cursor.token, h]
  rfl

/-- A bare token runs up to the next delimiter. -/
theorem token_of_bare {c : Cursor} {ch : Char} {more : List Char}
    (h : c.skipBlanks.rest = ch :: more) (hpipe : ch ≠ '|') (hdelim : isDelimiter ch = false) :
    c.token = .ok ((ch :: more).takeWhile (fun ch => !isDelimiter ch),
      c.goTo ((ch :: more).dropWhile fun ch => !isDelimiter ch)) := by
  unfold Cursor.token
  rw [h]
  split
  · next heq =>
    cases heq
    exact absurd rfl hpipe
  · rw [List.takeWhile_cons_of_pos (by rw [hdelim]; rfl)]

/-- No token starts at a parenthesis or at the end. -/
theorem token_of_delimiter {c : Cursor}
    (h : ∀ next ∈ (trimStart c.rest).head?, isDelimiter next = true) :
    c.token = .error (c.skipBlanks.flaw .expectedSymbol) := by
  unfold Cursor.token
  rw [skipBlanks_rest]
  cases hrest : trimStart c.rest with
  | nil => rfl
  | cons next rest =>
    have hnext : isDelimiter next = true := h next (by rw [hrest]; rfl)
    split
    · next heq =>
      cases heq
      exact absurd hnext (by decide)
    · rw [List.takeWhile_cons_of_neg (by simp [hnext])]

/-- How a token is read: up to the pipe that closes it, or up to the next delimiter. -/
inductive TokenRead (c : Cursor) : List Char → Cursor → Prop where
  | quoted {content after : List Char} (hpipe : '|' ∉ content)
      (hrest : trimStart c.rest = '|' :: (content ++ '|' :: after)) :
      TokenRead c ('|' :: (content ++ ['|'])) (c.goTo after)
  | bare {token after : List Char} (hne : token ≠ []) (hhead : token.head? ≠ some '|')
      (hdelim : ∀ ch ∈ token, isDelimiter ch = false) (hafter : Boundary after)
      (hrest : trimStart c.rest = token ++ after) : TokenRead c token (c.goTo after)

/-- **A token is read in one of two ways.** -/
theorem tokenRead_of_token {c c' : Cursor} {token : List Char} (h : c.token = .ok (token, c')) :
    TokenRead c token c' := by
  unfold Cursor.token at h
  split at h
  · next quoted heq =>
    split at h
    · next hclosed =>
      cases h
      -- the first pipe in the text is the one that closes it
      obtain ⟨content, after, rfl, hpipe⟩ :=
        List.eq_append_cons_of_mem (List.contains_iff_mem.1 hclosed)
      obtain ⟨htake, hdrop⟩ := span_of_not_mem hpipe after
      rw [htake, hdrop]
      exact .quoted hpipe heq
    · cases h
  · next hpipe =>
    split at h
    · cases h
    · next ch more htake =>
      cases h
      have happend := List.takeWhile_append_dropWhile (p := fun ch => !isDelimiter ch)
        (l := c.skipBlanks.rest)
      rw [htake] at happend
      refine .bare (List.cons_ne_nil _ _) ?_ (fun ch' hch' => ?_) (fun next hnext => ?_)
        happend.symm
      · rintro ⟨⟩
        exact hpipe _ happend.symm
      · rw [← htake] at hch'
        simpa using List.mem_takeWhile_imp hch'
      · have hstop := List.head?_dropWhile_not (fun ch => !isDelimiter ch) c.skipBlanks.rest
        rw [Option.mem_def.1 hnext] at hstop
        simpa using hstop

/-- What is taken and what is left make up the text. -/
theorem append_of_token {c c' : Cursor} {token : List Char} (h : c.token = .ok (token, c')) :
    token ++ c'.rest = trimStart c.rest := by
  cases tokenRead_of_token h with
  | quoted _ hrest =>
    rw [hrest, goTo_rest]
    simp
  | bare _ _ _ _ hrest => rw [hrest, goTo_rest]

/-- A token that is read has characters. -/
theorem ne_nil_of_token {c c' : Cursor} {token : List Char} (h : c.token = .ok (token, c')) :
    token ≠ [] := by
  cases tokenRead_of_token h with
  | quoted => exact List.cons_ne_nil _ _
  | bare hne => exact hne

end Cursor

end Interpolants
