import Interpolants.Proofs.Decoding.Table
import Interpolants.Proofs.Offsets.Term

/-!
# Interpolants — let blocks by byte offsets

A let block is walked through once: each bound term is decoded as soon as its text has been cut out.
Nothing is lost by taking the block apart first, as decoding does, because no part depends on what
another one is decoded to.
-/

namespace Interpolants

open Text Decode

/-- A step of decoding in which everything is checked. -/
abbrev GuardedStep (α : Type) : Type :=
  ExceptT Abort (StateM Bindings) α

namespace Offsets

/-! ## Steps -/

/-- Puts a run that leaves the table alone among the steps of decoding. -/
def check {α : Type} (run : Guarded α) : GuardedStep α :=
  match run with
  | .ok a => return a
  | .error e => throw e

/-- Takes the start of a binding: its parenthesis, its name and the text of its term. -/
def binding (block : List Char) (pos : Nat) : Guarded ((String × List Char) × Nat) := do
  let pos ← expect block pos '('
  let (name, pos) ← token block pos
  let (bound, pos) ← span block pos
  return ((unquote name, bound), pos)

/-- The body: what is left before the block's own closing parenthesis. -/
def bodyAt (block : List Char) (pos : Nat) : Guarded (List Char) := do
  let rest ← sliceFrom block pos
  if rest.getLast? = some ')' then return rest.dropLast else malformed block pos .expectedBody

/-- Decodes the bound terms of a let block one by one, and its body where they end. -/
def bindings (decode : Bindings → List Char → GuardedStep Expr) (scope : Bindings)
    (block : List Char) (inner : Bindings) (start : Nat) : GuardedStep Expr := do
  let (closed, pos) ← check (eat block start ')')
  if closed then do
    let body ← check (bodyAt block pos)
    decode inner body
  else do
    let ((name, bound), pos) ← check (binding block pos)
    let e ← decode scope bound
    let next ← check (expect block pos ')')
    if start < next ∧ next ≤ byteSize block then
      bindings decode scope block ((name, e) :: inner) next
    else throw (.fault .standstill)
termination_by byteSize block - start

/-- Takes the parenthesis of the block, the word `let` and the parenthesis of the bindings. -/
def header (block : List Char) : Guarded Nat := do
  let pos ← expect block 0 '('
  let (_, pos) ← token block pos
  expect block pos '('

def letBlock (decode : Bindings → List Char → GuardedStep Expr) (scope : Bindings)
    (block : List Char) : GuardedStep Expr := do
  let pos ← check (header block)
  bindings decode scope block scope pos

end Offsets

/-! ## Steps that agree -/

/-- On every numbered table a guarded step does what a step of decoding does. -/
def Agrees {α : Type} (step' : GuardedStep α) (step : Decode α) : Prop :=
  ∀ blocks, Numbered blocks →
    outcome step' blocks = (refusing (outcome step blocks).1, (outcome step blocks).2)

section

variable {α β : Type}

/-- An error is refused with the same error. -/
theorem agrees_throw (e : DecodeError) :
    Agrees (throw (.refused e) : GuardedStep α) (throw e : Decode α) :=
  fun _ _ => rfl

/-- Steps one after the other agree if each of them does. -/
theorem Agrees.bind {step' : GuardedStep α} {step : Decode α} {next' : α → GuardedStep β}
    {next : α → Decode β} (h : Agrees step' step) (hgrows : Grows step)
    (hnext : ∀ a, Agrees (next' a) (next a)) : Agrees (step' >>= next') (step >>= next) := by
  intro blocks hblocks
  have hrun := h blocks hblocks
  rcases hstep : outcome step blocks with ⟨e | a, later⟩
  · rw [hstep] at hrun
    rw [outcome_bind_of_error hstep, outcome_bind_of_error hrun]
    rfl
  · rw [hstep] at hrun
    rw [outcome_bind_of_ok hstep, outcome_bind_of_ok hrun]
    exact hnext a later (hgrows.numbered hblocks hstep)

end

namespace Offsets

section

variable {c : Cursor} {decode' : Bindings → List Char → GuardedStep Expr}
  {decode : Bindings → List Char → Decode Expr} {scope : Bindings}

/-- A binding is taken off at an offset as at the cursor that stands there. -/
theorem binding_offset (h : c.Inside) (hfits : ParensFit c.rest) :
    binding c.text c.offset = placed (LetBlock.binding c) := by
  rw [binding, expect_offset h, LetBlock.binding]
  cases hopen : c.expect '(' with
  | error e => rfl
  | ok c₁ =>
    have hadvances := Cursor.advances_of_expect hopen
    have hinside := hadvances.inside h
    show (token c.text c₁.offset >>= _) = placed (c₁.token >>= _)
    rw [← hadvances.text, token_offset hinside]
    refine placed_bind fun name c₂ htoken => ?_
    have hadvances₂ := Cursor.advances_of_token htoken
    have hfits₂ : ParensFit c₂.rest := hfits.sublist (hadvances.trans hadvances₂).rest.sublist
    show (span c₁.text c₂.offset >>= _) = placed (c₂.span >>= _)
    rw [← hadvances₂.text, span_offset (hadvances₂.inside hinside) hfits₂]
    exact placed_bind fun bound c₃ _ => rfl

/-- Blanks in front of a binding make no difference. -/
theorem binding_skipBlanks (c : Cursor) : LetBlock.binding c.skipBlanks = LetBlock.binding c := by
  rw [LetBlock.binding, LetBlock.binding, Cursor.expect_skipBlanks]

/-- The text of a bound term is a part of the block, and the cursor goes behind it. -/
theorem advances_of_binding {entry : String × List Char} {c' : Cursor}
    (h : LetBlock.binding c = .ok (entry, c')) : entry.2 <:+: c.rest ∧ c.Advances c' := by
  obtain ⟨c₁, hopen, h⟩ := except_bind_eq_ok_iff.1 h
  obtain ⟨⟨name, c₂⟩, htoken, h⟩ := except_bind_eq_ok_iff.1 h
  obtain ⟨⟨bound, c₃⟩, hspan, h⟩ := except_bind_eq_ok_iff.1 h
  cases h
  have hadvances := (Cursor.advances_of_expect hopen).trans (Cursor.advances_of_token htoken)
  have hblanks : trimStart c₂.rest <:+ c₂.rest := List.dropWhile_suffix _
  have hbound : bound <:+: trimStart c₂.rest := by
    rw [← Cursor.append_of_span hspan]
    exact (List.prefix_append bound _).isInfix
  exact ⟨hbound.trans (hblanks.trans hadvances.rest).isInfix,
    hadvances.trans (Cursor.advances_of_span hspan)⟩

/-- The body of a let block is a part of what is left of it. -/
theorem infix_of_bodyAt {body : List Char} (h : LetBlock.bodyAt c = .ok body) :
    body <:+: c.rest := by
  unfold LetBlock.bodyAt at h
  split at h
  · cases h
    exact (List.dropLast_prefix c.rest).isInfix
  · cases h

/-- The start of a let block moves the cursor on. -/
theorem advances_of_header {c' : Cursor} (h : LetBlock.header c = .ok c') : c.Advances c' := by
  obtain ⟨c₁, hopen, h⟩ := except_bind_eq_ok_iff.1 h
  obtain ⟨⟨word, c₂⟩, htoken, h⟩ := except_bind_eq_ok_iff.1 h
  exact ((Cursor.advances_of_expect hopen).trans (Cursor.advances_of_token htoken)).trans
    (Cursor.advances_of_expect h)

/-- The start of a let block is taken off by offsets as by a cursor. -/
theorem header_offset (block : List Char) :
    header block = refusing ((LetBlock.header (Cursor.ofText block)).map Cursor.offset) := by
  have hstart := Cursor.inside_ofText block
  have hopen := expect_offset hstart '('
  rw [Cursor.offset_ofText] at hopen
  rw [header, LetBlock.header]
  show (expect (Cursor.ofText block).text 0 '(' >>= _) = _
  rw [hopen]
  cases hfirst : (Cursor.ofText block).expect '(' with
  | error e => rfl
  | ok c₁ =>
    have hadvances := Cursor.advances_of_expect hfirst
    have hinside := hadvances.inside hstart
    have htext : c₁.text = block := hadvances.text
    show (token block c₁.offset >>= _) = refusing (Except.map Cursor.offset (c₁.token >>= _))
    rw [← htext, token_offset hinside]
    cases htoken : c₁.token with
    | error e => rfl
    | ok taken =>
      obtain ⟨word, c₂⟩ := taken
      have hadvances₂ := Cursor.advances_of_token htoken
      show expect c₁.text c₂.offset '(' = _
      rw [← hadvances₂.text, expect_offset (hadvances₂.inside hinside)]
      rfl

/-- The body of a let block is cut out at an offset as at the cursor that stands there. -/
theorem bodyAt_offset (h : c.Inside) : bodyAt c.text c.offset = refusing (LetBlock.bodyAt c) := by
  rw [bodyAt, sliceFrom_offset h, LetBlock.bodyAt]
  show (if c.rest.getLast? = some ')' then _ else _)
    = refusing (if c.rest.getLast? = some ')' then _ else _)
  split
  · rfl
  · exact malformed_offset h _

/-- What follows the bindings of a let block: its body is decoded, or the flaw is reported. -/
def finish (decode : Bindings → List Char → Decode Expr) (body : Except DecodeError (List Char))
    (inner : Bindings) : Decode Expr :=
  match body with
  | .ok body => decode inner body
  | .error e => throw e

/-- **One by one is all at once.** The bindings of a let block are decoded where they stand, up to
the parenthesis behind them, and this is to take them off first and decode them then, if decoding a
bound term agrees. -/
theorem agrees_bindings {limit : Nat} {inner : Bindings} (h : c.Inside)
    (hlimit : c.rest.length < limit) (hfits : ParensFit c.rest)
    (hgrows : ∀ inner part, Grows (decode inner part))
    (hdecode : ∀ inner part, part <:+: c.rest → Agrees (decode' inner part) (decode inner part)) :
    Agrees (bindings decode' scope c.text inner c.offset)
      (bindAll (decode scope) inner (LetBlock.bindingsAt limit c).bindings >>=
        finish decode (LetBlock.bindingsAt limit c).body) := by
  induction limit generalizing c inner with
  | zero => omega
  | succ limit ih =>
    rw [bindings]
    cases heat : c.eat? ')' with
    | some c' =>
      have hadvances := Cursor.advances_of_eat? heat
      rw [LetBlock.bindingsAt_of_eat? heat, eat_of_some h heat]
      show Agrees (check (bodyAt c.text c'.offset) >>= fun body => decode' inner body)
        (finish decode (LetBlock.bodyAt c') inner)
      rw [← hadvances.text, bodyAt_offset (hadvances.inside h)]
      cases hbody : LetBlock.bodyAt c' with
      | error e => exact agrees_throw e
      | ok body => exact hdecode inner body ((infix_of_bodyAt hbody).trans hadvances.rest.isInfix)
    | none =>
      have hfits' : ParensFit c.skipBlanks.rest := hfits.sublist (List.dropWhile_sublist _)
      rw [eat_of_none h heat]
      show Agrees (check (binding c.skipBlanks.text c.skipBlanks.offset) >>= _) _
      rw [binding_offset h.skipBlanks hfits', binding_skipBlanks]
      cases hentry : LetBlock.binding c with
      | error e =>
        rw [LetBlock.bindingsAt_of_flaw heat hentry]
        exact agrees_throw e
      | ok read =>
        obtain ⟨⟨name, bound⟩, c₁⟩ := read
        obtain ⟨hbound, hadvances⟩ := advances_of_binding hentry
        have hinside := hadvances.inside h
        have hdecoded := hdecode scope bound hbound
        show Agrees (decode' scope bound >>= fun e => check (expect c.text c₁.offset ')') >>= _) _
        rw [← hadvances.text, expect_offset hinside]
        -- the parenthesis behind a bound term is missed only after the term has been decoded
        cases hclose : c₁.expect ')' with
        | error e =>
          rw [LetBlock.bindingsAt_of_unclosed heat hentry hclose, bindAll, bind_assoc]
          exact hdecoded.bind (hgrows scope bound) fun _ => agrees_throw e
        | ok c₂ =>
          have hnext := hadvances.trans (Cursor.advances_of_expect hclose)
          rw [LetBlock.bindingsAt_of_entry heat hentry hclose, bindAll, bind_assoc]
          refine hdecoded.bind (hgrows scope bound) fun e => ?_
          show Agrees (if c.offset < c₂.offset ∧ c₂.offset ≤ byteSize c₁.text then _ else _) _
          rw [hadvances.text, if_pos (hnext.offset_lt h), ← hnext.text]
          exact ih (hnext.inside h) (Nat.lt_of_lt_of_le hnext.shorter (Nat.le_of_lt_succ hlimit))
            (hfits.sublist hnext.rest.sublist)
            fun inner part hpart => hdecode inner part (hpart.trans hnext.rest.isInfix)

/-- **A let block is decoded by offsets**, if its parts are. -/
theorem agrees_letBlock {block : List Char}
    (hfits : ParensFit block)
    (hgrows : ∀ inner part, Grows (decode inner part))
    (hdecode : ∀ inner part, byteSize part < byteSize block → ParensFit part →
      Agrees (decode' inner part) (decode inner part)) :
    Agrees (letBlock decode' scope block) (Decode.block decode scope block) := by
  have hblock : Decode.block decode scope block
      = bindAll (decode scope) scope (LetBlock.ofText block).bindings >>=
        finish decode (LetBlock.ofText block).body := rfl
  rw [hblock, letBlock, header_offset, LetBlock.ofText]
  cases hheader : LetBlock.header (Cursor.ofText block) with
  | error e => exact agrees_throw e
  | ok c =>
    have hadvances := advances_of_header hheader
    have hfits' : ParensFit c.rest := hfits.sublist hadvances.rest.sublist
    have hshorter : c.rest.length < block.length := hadvances.shorter
    have htext : c.text = block := hadvances.text
    -- behind its start the block has only smaller parts
    have hbindings : Agrees (bindings decode' scope c.text scope c.offset)
        (bindAll (decode scope) scope (LetBlock.bindingsAt (block.length + 1) c).bindings >>=
          finish decode (LetBlock.bindingsAt (block.length + 1) c).body) := by
      refine agrees_bindings (hadvances.inside (Cursor.inside_ofText block)) (by omega)
        hfits' hgrows
        fun inner part hpart => hdecode inner part ?_ ?_
      · exact Nat.lt_of_le_of_lt (byteSize_le_of_part hpart) hadvances.byteSize_lt
      · exact hfits'.sublist hpart.sublist
    rw [htext] at hbindings
    exact hbindings

end

end Offsets

end Interpolants
