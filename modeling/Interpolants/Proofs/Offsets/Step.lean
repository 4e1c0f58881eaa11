import Interpolants.Proofs.Decoding.Unseen
import Interpolants.Proofs.Offsets.Cursor

/-!
# Interpolants — walking through a text by byte offsets

The cursor of decoding, with the number of bytes before it in place of the text behind it. Every
step slices the text anew, finds its way by sizes, and may hit a fault. Each is shown to do what the
step of the same name does on a `Cursor`, at the cursor's offset.
-/

namespace Interpolants

open Text

namespace Offsets

/-! ## Steps -/

def skipBlanks (text : List Char) (pos : Nat) : Guarded Nat := do
  let rest ← sliceFrom text pos
  return pos + (← less (byteSize rest) (byteSize (trimStart rest)))

/-- The next character. -/
def peek (text : List Char) (pos : Nat) : Guarded (Option Char) := do
  return (← sliceFrom text pos).head?

/-- Skips blanks, and a character behind them if it is there. -/
def eat (text : List Char) (pos : Nat) (wanted : Char) : Guarded (Bool × Nat) := do
  let pos ← skipBlanks text pos
  if (← peek text pos) = some wanted then return (true, pos + wanted.utf8Size)
    else return (false, pos)

/-- Refuses the text for a flaw at an offset. -/
def malformed {α : Type} (text : List Char) (pos : Nat) (what : Flaw) : Guarded α :=
  if byteSize text ≤ pos then .error (.refused (.flaw what (.atEnd text)))
  else do
    let rest ← sliceFrom text pos
    .error (.refused (.flaw what (.before rest)))

def expect (text : List Char) (pos : Nat) (wanted : Char) : Guarded Nat := do
  let (eaten, pos) ← eat text pos wanted
  if eaten then return pos else malformed text pos (.expected wanted)

/-- The size of the token that a text starts with, if the pipe that opens it is closed. -/
def tokenSize? : List Char → Option Nat
  | '|' :: quoted => (offsetOf? (· == '|') quoted).map (· + 2)
  | cs => some ((offsetOf? isDelimiter cs).getD (byteSize cs))

/-- Takes a token of some size, if it has one, off the text that is left. -/
def tokenAt (text : List Char) (pos : Nat) (rest : List Char) :
    Option Nat → Guarded (List Char × Nat)
  | none => malformed text pos .unterminatedQuote
  | some size =>
    if size = 0 then malformed text pos .expectedSymbol
    else do return (← sliceTo rest size, pos + size)

def token (text : List Char) (pos : Nat) : Guarded (List Char × Nat) := do
  let pos ← skipBlanks text pos
  let rest ← sliceFrom text pos
  tokenAt text pos rest (tokenSize? rest)

/-- The offset of the parenthesis that closes the first one. `depth` parentheses are open, and
`quoted` says whether an odd number of pipes has come by. -/
def closeOffset (depth : Int) (quoted : Bool) (pos : Nat) : List Char → Guarded (Option Nat)
  | [] => .ok none
  | c :: cs =>
    if c = '|' then closeOffset depth (!quoted) (pos + c.utf8Size) cs
    else if quoted then closeOffset depth quoted (pos + c.utf8Size) cs
    else if c = '(' then do
      let depth ← word32 (depth + 1)
      closeOffset depth quoted (pos + c.utf8Size) cs
    else if c = ')' then do
      let depth ← word32 (depth - 1)
      if depth = 0 then return some pos else closeOffset depth quoted (pos + c.utf8Size) cs
    else closeOffset depth quoted (pos + c.utf8Size) cs

/-- The offset of the parenthesis that closes the one at an offset. -/
def matchingParen (text : List Char) (start : Nat) : Guarded Nat := do
  let rest ← sliceFrom text start
  match ← closeOffset 0 false 0 rest with
  | some stop => return start + stop
  | none => .error (.refused (.unbalanced (← sliceFrom text start)))

/-- Takes the text of one term. -/
def span (text : List Char) (pos : Nat) : Guarded (List Char × Nat) := do
  let start ← skipBlanks text pos
  if (← peek text start) = some '(' then
    let stop ← matchingParen text start
    return (← slice text start (stop + 1), stop + 1)
  else
    let (_, stop) ← token text start
    return (← slice text start stop, stop)

end Offsets

/-- What a reader gives and the offset it stops at. -/
def placed {α : Type} (read : Except DecodeError (α × Cursor)) : Guarded (α × Nat) :=
  refusing (read.map fun r => (r.1, r.2.offset))

namespace Offsets

/-! ## Every step does what the cursor does -/

section

variable {c : Cursor}

/-- What follows the offset of a cursor is what is left at the cursor. -/
theorem sliceFrom_offset (h : c.Inside) : sliceFrom c.text c.offset = .ok c.rest := by
  obtain ⟨front, htext, hoffset⟩ := h.exists_front
  rw [htext, hoffset]
  exact sliceFrom_append front c.rest

/-- Blanks are skipped at an offset as at the cursor that stands there. -/
theorem skipBlanks_offset (h : c.Inside) :
    skipBlanks c.text c.offset = .ok c.skipBlanks.offset := by
  obtain ⟨blanks, hblanks⟩ : trimStart c.rest <:+ c.rest := List.dropWhile_suffix _
  obtain ⟨front, htext, hoffset⟩ := h.exists_front
  have hrest := congrArg byteSize hblanks
  have hsize := congrArg byteSize htext
  rw [byteSize_append] at hrest hsize
  have hle : byteSize (trimStart c.rest) ≤ byteSize c.rest := by omega
  have hskipped : c.skipBlanks.offset = byteSize c.text - byteSize (trimStart c.rest) := rfl
  rw [skipBlanks, sliceFrom_offset h]
  show (less _ _ >>= fun n => pure (c.offset + n)) = _
  rw [less_of_le hle, hskipped]
  show Except.ok _ = Except.ok _
  congr 1
  omega

theorem peek_offset (h : c.Inside) : peek c.text c.offset = .ok c.rest.head? := by
  rw [peek, sliceFrom_offset h]
  rfl

/-- A flaw is reported at an offset as at the cursor that stands there. -/
theorem malformed_offset {α : Type} (h : c.Inside) (what : Flaw) :
    (malformed c.text c.offset what : Guarded α) = .error (.refused (c.flaw what)) := by
  obtain ⟨front, htext, hoffset⟩ := h.exists_front
  have hsize := congrArg byteSize htext
  rw [byteSize_append] at hsize
  rw [malformed, Cursor.flaw]
  cases hrest : c.rest with
  | nil =>
    rw [hrest, byteSize_nil] at hsize
    rw [if_pos (by omega)]
    rfl
  | cons next rest =>
    have hpos := byteSize_pos (List.cons_ne_nil next rest)
    rw [hrest] at hsize
    rw [if_neg (by omega), sliceFrom_offset h, hrest]
    rfl

/-- A character that the cursor takes is taken at its offset. -/
theorem eat_of_some {c' : Cursor} {wanted : Char} (h : c.Inside) (heat : c.eat? wanted = some c') :
    eat c.text c.offset wanted = .ok (true, c'.offset) := by
  have hrest := Cursor.rest_of_eat? heat
  have hpiece : [wanted] ++ c'.rest = c.skipBlanks.rest := hrest.symm
  have hoffset : c'.offset = c.skipBlanks.offset + wanted.utf8Size := by
    rw [h.skipBlanks.offset_of_append (Cursor.advances_of_eat? heat).text hpiece]
    simp
  rw [eat, skipBlanks_offset h]
  show (peek c.skipBlanks.text c.skipBlanks.offset >>= _) = _
  rw [peek_offset h.skipBlanks, Cursor.skipBlanks_rest, hrest, hoffset]
  exact if_pos rfl

/-- Nothing is taken in front of another character, or where the text ends. -/
theorem eat_of_ne {wanted : Char} (h : c.Inside) (hne : c.skipBlanks.rest.head? ≠ some wanted) :
    eat c.text c.offset wanted = .ok (false, c.skipBlanks.offset) := by
  rw [eat, skipBlanks_offset h]
  show (peek c.skipBlanks.text c.skipBlanks.offset >>= _) = _
  rw [peek_offset h.skipBlanks]
  exact if_neg hne

/-- A character that the cursor does not take is not taken at its offset. -/
theorem eat_of_none {wanted : Char} (h : c.Inside) (heat : c.eat? wanted = none) :
    eat c.text c.offset wanted = .ok (false, c.skipBlanks.offset) := by
  refine eat_of_ne h fun hhead => ?_
  obtain ⟨rest, hrest⟩ := List.head?_eq_some_iff.1 hhead
  rw [Cursor.eat?_of_head hrest] at heat
  cases heat

/-- An expected character is taken or missed at an offset as at the cursor that stands there. -/
theorem expect_offset (h : c.Inside) (wanted : Char) :
    expect c.text c.offset wanted = refusing ((c.expect wanted).map Cursor.offset) := by
  rw [expect, Cursor.expect]
  cases heat : c.eat? wanted with
  | some c' =>
    rw [eat_of_some h heat]
    rfl
  | none =>
    rw [eat_of_none h heat]
    exact malformed_offset h.skipBlanks _

/-- A reader that takes a piece of the text off its front. -/
theorem placed_of_append {piece : List Char} {c' : Cursor} (h : c.Inside) (htext : c'.text = c.text)
    (hpiece : piece ++ c'.rest = c.rest) :
    placed (.ok (piece, c')) = .ok (piece, c.offset + byteSize piece) := by
  show Except.ok (piece, c'.offset) = _
  rw [h.offset_of_append htext hpiece]

/-- A token between pipes reaches to the next pipe, if there is one. -/
theorem tokenSize?_pipe (quoted : List Char) :
    tokenSize? ('|' :: quoted) = if quoted.contains '|' then
      some (byteSize ('|' :: quoted.takeWhile (· != '|') ++ ['|'])) else none := by
  have hpipe : '|'.utf8Size = 1 := by decide
  have hany : quoted.contains '|' = quoted.any (· == '|') := by
    rw [List.contains_eq_any_beq]
    simp only [Bool.beq_comm]
  rw [tokenSize?, offsetOf?_eq, hany]
  split
  · rw [List.cons_append, byteSize_cons, byteSize_append, byteSize_cons, byteSize_nil, hpipe]
    show some (byteSize (quoted.takeWhile (· != '|')) + 2) = _
    congr 1
    omega
  · rfl

/-- A bare token reaches to the next delimiter. -/
theorem tokenSize?_bare {cs : List Char} (h : ∀ quoted, cs ≠ '|' :: quoted) :
    tokenSize? cs = some (byteSize (cs.takeWhile fun ch => !isDelimiter ch)) := by
  have hsize : tokenSize? cs = some ((offsetOf? isDelimiter cs).getD (byteSize cs)) := by
    unfold tokenSize?
    split
    · exact absurd rfl (h _)
    · rfl
  rw [hsize, offsetOf?_eq]
  split
  · rfl
  · next hnone =>
    -- no delimiter follows, so the token is what is left of the text
    have hall : ∀ ch ∈ cs, (!isDelimiter ch) = true := by
      intro ch hch
      rw [Bool.not_eq_true', Bool.eq_false_iff]
      exact fun hdelim => hnone (List.any_eq_true.2 ⟨ch, hch, hdelim⟩)
    rw [List.takeWhile_eq_self_iff.2 hall]
    rfl

/-- A token is sized and taken behind the blanks. -/
theorem token_eq (h : c.Inside) : token c.text c.offset =
    tokenAt c.text c.skipBlanks.offset c.skipBlanks.rest (tokenSize? c.skipBlanks.rest) := by
  rw [token, skipBlanks_offset h]
  show (sliceFrom c.skipBlanks.text c.skipBlanks.offset >>= _) = _
  rw [sliceFrom_offset h.skipBlanks]
  rfl

/-- A token of some size is taken off the text behind the blanks. -/
theorem token_of_size {piece : List Char} {c' : Cursor} (h : c.Inside)
    (htoken : c.token = .ok (piece, c'))
    (hsize : tokenSize? c.skipBlanks.rest = some (byteSize piece)) :
    token c.text c.offset = placed c.token := by
  have hadvances := Cursor.advances_of_token htoken
  have hpiece : piece ++ c'.rest = c.skipBlanks.rest := Cursor.append_of_token htoken
  have hpos := byteSize_pos (Cursor.ne_nil_of_token htoken)
  have htake : sliceTo c.skipBlanks.rest (byteSize piece) = .ok piece := by
    rw [← hpiece]
    exact sliceTo_append piece c'.rest
  rw [token_eq h, hsize, htoken, placed_of_append h.skipBlanks hadvances.text hpiece, tokenAt,
    if_neg (by omega), htake]
  rfl

/-- No token starts with a delimiter, or where the text ends. -/
theorem token_of_delimiter (h : c.Inside)
    (hdelim : ∀ next ∈ c.skipBlanks.rest.head?, isDelimiter next = true) :
    token c.text c.offset = placed c.token := by
  have hpipe : ∀ quoted, c.skipBlanks.rest ≠ '|' :: quoted := by
    intro quoted heq
    rw [heq] at hdelim
    exact absurd (hdelim '|' rfl) (by decide)
  have hnil : c.skipBlanks.rest.takeWhile (fun ch => !isDelimiter ch) = [] := by
    cases hrest : c.skipBlanks.rest with
    | nil => rfl
    | cons ch more =>
      have hch : isDelimiter ch = true := hdelim ch (by rw [hrest]; rfl)
      exact List.takeWhile_cons_of_neg (by simp [hch])
  rw [token_eq h, tokenSize?_bare hpipe, hnil, Cursor.token_of_delimiter hdelim]
  exact malformed_offset h.skipBlanks _

/-- **A token is read by offsets.** -/
theorem token_offset (h : c.Inside) : token c.text c.offset = placed c.token := by
  cases hrest : c.skipBlanks.rest with
  | nil =>
    refine token_of_delimiter h ?_
    rw [hrest]
    simp
  | cons ch more =>
    -- a pipe, a delimiter and any other character start three kinds of tokens
    by_cases hpipe : ch = '|'
    · subst hpipe
      have htoken := Cursor.token_of_pipe hrest
      by_cases hclosed : more.contains '|' = true
      · rw [if_pos hclosed] at htoken
        refine token_of_size h htoken ?_
        rw [hrest, tokenSize?_pipe, if_pos hclosed]
      · rw [if_neg hclosed] at htoken
        rw [token_eq h, hrest, tokenSize?_pipe, if_neg hclosed, htoken]
        exact malformed_offset h.skipBlanks _
    · cases hdelim : isDelimiter ch with
      | true =>
        refine token_of_delimiter h ?_
        rw [hrest]
        simp [hdelim]
      | false =>
        refine token_of_size h (Cursor.token_of_bare hrest hpipe hdelim) ?_
        rw [hrest]
        exact tokenSize?_bare fun quoted heq => hpipe (List.cons.inj heq).1

theorem map_byteSize_cons (ch : Char) (pos : Nat) (split : Option (List Char × List Char)) :
    (split.map fun s => (ch :: s.1, s.2)).map (fun s => pos + byteSize s.1 - 1)
      = split.map fun s => pos + ch.utf8Size + byteSize s.1 - 1 := by
  rw [Option.map_map]
  simp only [Function.comp_def, byteSize_cons, Nat.add_assoc]

/-- **The search for a closing parenthesis** counts no more of them than a word holds. -/
theorem closeOffset_eq {depth : Nat} {quoted : Bool} {cs : List Char} (hdepth : 1 ≤ depth)
    (hfits : ((depth + cs.count '(' : Nat) : Int) ≤ Int32.maxValue.toInt) (pos : Nat) :
    closeOffset depth quoted pos cs
      = .ok ((closing depth quoted cs).map fun split => pos + byteSize split.1 - 1) := by
  induction cs generalizing depth quoted pos with
  | nil => rfl
  | cons ch cs ih =>
    have hless : cs.count '(' ≤ (ch :: cs).count '(' := List.count_le_count_cons
    rw [closeOffset, closing]
    by_cases hpipe : ch = '|'
    · subst hpipe
      have hstays : depthAfter depth quoted '|' = depth := by cases quoted <;> rfl
      rw [if_pos rfl, if_neg (by simp), if_pos rfl, map_byteSize_cons, hstays]
      exact ih hdepth (by omega) _
    rw [if_neg hpipe, if_neg hpipe]
    cases quoted with
    | true =>
      rw [if_pos rfl, if_neg (by simp), map_byteSize_cons]
      exact ih hdepth (by omega) _
    | false =>
      rw [if_neg (by decide)]
      by_cases hopen : ch = '('
      · subst hopen
        rw [List.count_cons_self] at hfits
        rw [if_pos rfl, if_neg (by simp), map_byteSize_cons, word32_succ (by omega)]
        exact ih (by omega) (by omega) _
      by_cases hclose : ch = ')'
      · subst hclose
        rw [if_neg (by decide), if_pos rfl, word32_pred hdepth (by omega)]
        show (if ((depth - 1 : Nat) : Int) = 0 then _ else _) = _
        -- the parenthesis closes the first one, or an inner one
        by_cases hlast : depth ≤ 1
        · rw [if_pos (by omega), if_pos ⟨rfl, rfl, hlast⟩]
          rfl
        · rw [if_neg (by omega), if_neg (by omega), map_byteSize_cons]
          exact ih (by omega) (by omega) _
      · have hstays : depthAfter depth false ch = depth := by simp [depthAfter, hopen, hclose]
        rw [if_neg hopen, if_neg hclose, if_neg (by simp [hclose]), map_byteSize_cons, hstays]
        exact ih hdepth (by omega) _

/-- The count of parentheses ends where the list does. -/
theorem closeOffset_open {more : List Char}
    (hfits : ParensFit ('(' :: more)) :
    closeOffset 0 false 0 ('(' :: more)
      = .ok ((enclosed ('(' :: more)).map fun split => 0 + byteSize split.1 - 1) := by
  have hword : word32 (0 + 1) = .ok ((1 : Nat) : Int) := word32_of_le (by decide)
  unfold ParensFit at hfits
  rw [List.count_cons_self] at hfits
  rw [closeOffset, if_neg (by decide), if_neg (by decide), if_pos rfl, hword, enclosed,
    closing_open, map_byteSize_cons]
  exact closeOffset_eq (Nat.le_refl 1) (by omega) _

/-- **The matching parenthesis is found by offsets.** -/
theorem matchingParen_of_some {more found after : List Char} (h : c.Inside)
    (hopen : c.rest = '(' :: more) (hfits : ParensFit c.rest)
    (hfound : enclosed ('(' :: more) = some (found, after)) :
    ∃ stop, matchingParen c.text c.offset = .ok stop ∧ stop + 1 = (c.goTo after).offset := by
  have happend : found ++ (c.goTo after).rest = c.rest := by
    rw [hopen]
    exact append_of_closing hfound
  have hpos : 0 < byteSize found := by
    refine byteSize_pos ?_
    rintro rfl
    exact absurd (getLast?_of_closing hfound) (by simp)
  have hbehind : (c.goTo after).offset = c.offset + byteSize found := h.offset_of_append rfl happend
  refine ⟨c.offset + (byteSize found - 1), ?_, by omega⟩
  rw [hopen] at hfits
  rw [matchingParen, sliceFrom_offset h, hopen]
  show (closeOffset 0 false 0 ('(' :: more) >>= _) = _
  rw [closeOffset_open hfits, hfound, Option.map_some, Nat.zero_add]
  rfl

/-- A parenthesis that is not closed has no match. -/
theorem matchingParen_of_none {more : List Char} (h : c.Inside) (hopen : c.rest = '(' :: more)
    (hfits : ParensFit c.rest)
    (hfound : enclosed ('(' :: more) = none) :
    matchingParen c.text c.offset = .error (.refused (.unbalanced ('(' :: more))) := by
  rw [hopen] at hfits
  rw [matchingParen, sliceFrom_offset h, hopen]
  show (closeOffset 0 false 0 ('(' :: more) >>= _) = _
  rw [closeOffset_open hfits, hfound]
  rfl

/-- What stands between the offsets of two cursors is what the second one has passed. -/
theorem slice_offset {piece : List Char} {c' : Cursor} (h : c.Inside) (htext : c'.text = c.text)
    (hpiece : piece ++ c'.rest = c.rest) : slice c.text c.offset c'.offset = .ok piece := by
  obtain ⟨front, hfront, hoffset⟩ := h.exists_front
  rw [h.offset_of_append htext hpiece, hoffset, hfront, ← hpiece, ← byteSize_append,
    ← List.append_assoc]
  exact slice_append front piece c'.rest

/-- **The text of a term is taken by offsets.** -/
theorem span_offset (h : c.Inside) (hfits : ParensFit c.rest) :
    span c.text c.offset = placed c.span := by
  have hblanks := h.skipBlanks
  rw [span, skipBlanks_offset h]
  show (peek c.skipBlanks.text c.skipBlanks.offset >>= _) = _
  rw [peek_offset hblanks]
  show (if c.skipBlanks.rest.head? = some '(' then _ else _) = _
  by_cases hhead : c.skipBlanks.rest.head? = some '('
  -- a term in parentheses ends where they are closed, any other one where its token does
  · obtain ⟨more, hopen⟩ := List.head?_eq_some_iff.1 hhead
    have hfits' : ParensFit c.skipBlanks.rest := hfits.sublist (List.dropWhile_sublist _)
    rw [if_pos hhead]
    show (matchingParen c.skipBlanks.text c.skipBlanks.offset >>= _) = _
    cases hfound : enclosed ('(' :: more) with
    | none =>
      rw [matchingParen_of_none hblanks hopen hfits' hfound, Cursor.span_of_none hopen hfound]
      rfl
    | some cut =>
      obtain ⟨found, after⟩ := cut
      obtain ⟨stop, hstop, hoffset⟩ := matchingParen_of_some hblanks hopen hfits' hfound
      have hpiece : found ++ (c.skipBlanks.goTo after).rest = c.skipBlanks.rest := by
        rw [hopen]
        exact append_of_closing hfound
      rw [hstop, Cursor.span_of_some hopen hfound]
      show (slice c.skipBlanks.text c.skipBlanks.offset (stop + 1) >>= _) = _
      have hslice : slice c.skipBlanks.text c.skipBlanks.offset (c.skipBlanks.goTo after).offset
          = .ok found := slice_offset hblanks rfl hpiece
      rw [hoffset, hslice]
      rfl
  · rw [if_neg hhead, Cursor.span_of_ne hhead]
    show (token c.skipBlanks.text c.skipBlanks.offset >>= _) = _
    rw [token_offset hblanks, Cursor.token_skipBlanks]
    cases htoken : c.token with
    | error e => rfl
    | ok taken =>
      obtain ⟨piece, c'⟩ := taken
      have hpiece : piece ++ c'.rest = c.skipBlanks.rest := Cursor.append_of_token htoken
      show (slice c.skipBlanks.text c.skipBlanks.offset c'.offset >>= _) = _
      rw [slice_offset hblanks (Cursor.advances_of_token htoken).text hpiece]
      rfl

end

end Offsets

end Interpolants
