import Interpolants.Decoding.Term
import Interpolants.Proofs.Decoding.Reading
import Interpolants.Proofs.Offsets.Step

/-!
# Interpolants — reading terms by byte offsets

The second pass of decoding on offsets. A round of the loop over operands has to end behind the
place it started at, and so has the start of a term that stands inside another one; otherwise the
run is at a standstill, which is a fault. With these checks no bound on the depth is needed.
-/

namespace Interpolants

open Text

namespace Offsets

/-! ## Steps -/

/-- Skips the magnitude of the least signed word and a closing parenthesis, if they come next. -/
def leastWord (text : List Char) (pos : Nat) : Guarded (Option Nat) :=
  match token text pos with
  | .ok (numeral, behind) =>
    if Decimal.isNumeral numeral && Decimal.value numeral == Int64.minValue.toInt.natAbs then do
      let (closed, stop) ← eat text behind ')'
      return if closed then some stop else none
    else return none
  | .error (.refused _) => return none
  | .error (.fault what) => .error (.fault what)

/-- What stands for the least signed word behind an operator. -/
def leastBehind (op text : List Char) (pos : Nat) : Guarded (Option Nat) :=
  if op = ['-'] then leastWord text pos else .ok none

/-- Reads operands up to the closing parenthesis. -/
def operands (text : List Char) (read : Nat → Guarded (Expr × Nat)) (start : Nat) :
    Guarded (List Expr × Nat) := do
  let (closed, pos) ← eat text start ')'
  if closed then return ([], pos)
  else if (← peek text pos) = none then malformed text pos .unclosed
  else do
    let (e, next) ← read pos
    if start < next ∧ next ≤ byteSize text then do
      let (es, stop) ← operands text read next
      return (e :: es, stop)
    else .error (.fault .standstill)
termination_by byteSize text - start

def term (names : Names) (text : List Char) (start : Nat) : Guarded (Expr × Nat) := do
  let pos ← skipBlanks text start
  let next ← peek text pos
  if next = none then malformed text pos .expectedTerm
  else if next = some ')' then malformed text pos .unexpectedClose
  else if next = some '(' then do
    let pos ← expect text pos '('
    let (op, pos) ← token text pos
    match ← leastBehind op text pos with
    | some stop => return (.integer Int64.minValue, stop)
    | none => do
      let read (inner : Nat) : Guarded (Expr × Nat) :=
        if start < inner ∧ inner ≤ byteSize text then term names text inner
        else .error (.fault .standstill)
      let (es, stop) ← operands text read pos
      return (← refusing (applyNamed (String.ofList op) es), stop)
  else do
    let (name, stop) ← token text pos
    return (← refusing (names.leaf name), stop)
termination_by byteSize text - start

/-- The formula of a whole text without let blocks. -/
def wholeTerm (names : Names) (text : List Char) : Guarded Expr := do
  let (e, pos) ← term names text 0
  let pos ← skipBlanks text pos
  if (← sliceFrom text pos).isEmpty then return e else malformed text pos .trailing

end Offsets

/-! ## Reading moves the cursor on -/

section

variable {names : Names} {c c' : Cursor} {e : Expr}

/-- The least word moves the cursor on. -/
theorem Cursor.advances_of_leastWord? (h : c.leastWord? = some c') : c.Advances c' := by
  obtain ⟨token, behind, htoken, -, heat⟩ := exists_numeral_of_leastWord? h
  exact (advances_of_token htoken).trans (advances_of_eat? heat)

/-- Operands move the cursor on, if each of them does. -/
theorem advances_of_operands {read : Cursor → Except DecodeError (Expr × Cursor)} {es : List Expr}
    (hread : ∀ {c e c'}, read c = .ok (e, c') → c.Advances c') (h : OperandsRead read c es c') :
    c.Advances c' := by
  induction h with
  | close hclose => exact Cursor.advances_of_cons hclose
  | more hfirst _ ih => exact (hread hfirst).of_skipBlanks.trans ih

/-- A term moves the cursor on. -/
theorem advances_of_term {depth : Nat} (h : term names depth c = .ok (e, c')) : c.Advances c' := by
  induction depth generalizing c e c' with
  | zero => cases h
  | succ depth ih =>
    cases termRead_of_term h with
    | leaf _ htoken => exact Cursor.advances_of_token htoken
    | leastWord hopen hminus hleast =>
      exact (Cursor.advances_of_cons hopen).trans
        ((Cursor.advances_of_token hminus).trans (Cursor.advances_of_leastWord? hleast))
    | application hopen hop _ hoperands =>
      exact (Cursor.advances_of_cons hopen).trans
        ((Cursor.advances_of_token hop).trans (advances_of_operands ih hoperands))

end

namespace Offsets

/-! ## Every step does what the cursor does -/

section

variable {names : Names} {c : Cursor}

/-- What is read next is read by offsets too, wherever the first reader stops. -/
theorem placed_bind {α β : Type} {x : Except DecodeError (α × Cursor)}
    {next : α × Cursor → Except DecodeError (β × Cursor)} {next' : α × Nat → Guarded (β × Nat)}
    (h : ∀ a c', x = .ok (a, c') → next' (a, c'.offset) = placed (next (a, c'))) :
    placed x >>= next' = placed (x >>= next) := by
  rcases x with e | ⟨a, c'⟩
  · rfl
  · exact h a c' rfl

/-- The least word is skipped at an offset as at the cursor that stands there. -/
theorem leastWord_offset (h : c.Inside) :
    leastWord c.text c.offset = .ok (c.leastWord?.map Cursor.offset) := by
  rw [leastWord, token_offset h, Cursor.leastWord?]
  cases htoken : c.token with
  | error e => rfl
  | ok taken =>
    obtain ⟨numeral, behind⟩ := taken
    have hadvances := Cursor.advances_of_token htoken
    show (if _ then _ else _) = Except.ok ((if _ then _ else _ : Option Cursor).map _)
    split
    · rw [← hadvances.text]
      cases heat : behind.eat? ')' with
      | some c' =>
        rw [eat_of_some (hadvances.inside h) heat]
        rfl
      | none =>
        rw [eat_of_none (hadvances.inside h) heat]
        rfl
    · rfl

/-- Behind a minus sign the least word is skipped as by the cursor, and behind no other operator. -/
theorem leastBehind_offset (h : c.Inside) (op : List Char) :
    leastBehind op c.text c.offset
      = .ok ((if op = ['-'] then c.leastWord? else none).map Cursor.offset) := by
  rw [leastBehind]
  split
  · exact leastWord_offset h
  · rfl

/-- Operands are read at offsets as at the cursors that stand there, if a term is. -/
theorem operands_offset {read : Cursor → Except DecodeError (Expr × Cursor)}
    {read' : Nat → Guarded (Expr × Nat)} {c₀ : Cursor} (h₀ : c₀.Inside)
    (hread : ∀ c, c₀.Advances c → read' c.offset = placed (read c))
    (hadvances : ∀ {c e c'}, read c = .ok (e, c') → c.Advances c') {limit : Nat}
    (h : c₀.Advances c) (hlimit : c.rest.length < limit) :
    operands c₀.text read' c.offset = placed (Interpolants.operands read limit c) := by
  induction limit generalizing c with
  | zero => omega
  | succ limit ih =>
    have hinside := h.inside h₀
    have hblanks := hinside.skipBlanks
    rw [operands, Interpolants.operands, ← h.text]
    split
    · next heq =>
      rw [eat_of_ne hinside (by rw [heq]; decide)]
      show (peek c.skipBlanks.text c.skipBlanks.offset >>= _) = _
      rw [peek_offset hblanks, heq]
      exact malformed_offset hblanks _
    · next rest heq =>
      rw [eat_of_some hinside (Cursor.eat?_of_head heq)]
      rfl
    · next next rest hclose heq =>
      rw [eat_of_ne hinside (by rw [heq]; simpa using hclose)]
      show (peek c.skipBlanks.text c.skipBlanks.offset >>= _) = _
      rw [peek_offset hblanks, heq]
      show (read' c.skipBlanks.offset >>= _) = _
      rw [hread _ h.skipBlanks]
      refine placed_bind fun e c' hfirst => ?_
      -- an operand has been read, so the loop has come further
      have hnext := (hadvances hfirst).of_skipBlanks
      show (if c.offset < c'.offset ∧ c'.offset ≤ byteSize c.text then _ else _) = _
      rw [if_pos (hnext.offset_lt hinside)]
      have hmore := ih (h.trans hnext) (Nat.lt_of_lt_of_le hnext.shorter (Nat.le_of_lt_succ hlimit))
      rw [h.text, hmore]
      exact placed_bind fun es c₂ _ => rfl

/-- An opening parenthesis behind the blanks is there when it is expected. -/
theorem expect_open {rest : List Char} (h : c.Inside) (hopen : c.skipBlanks.rest = '(' :: rest) :
    expect c.text c.skipBlanks.offset '(' = .ok (c.goTo rest).offset := by
  have hhead : trimStart c.skipBlanks.rest = '(' :: rest := by
    rw [hopen, trimStart_of_not_isBlank (by decide)]
  have hexpect := expect_offset h.skipBlanks '('
  rw [Cursor.expect_of_head hhead] at hexpect
  exact hexpect

/-- Every operand stands behind the start of the application, so the run never is at a
standstill. -/
theorem operands_behind {depth : Nat} {c₁ : Cursor} (h : c.Inside) (hbehind : c.Advances c₁)
    (hterm : ∀ inner, c.Advances inner →
      term names inner.text inner.offset = placed (Interpolants.term names depth inner)) :
    operands c₁.text (fun inner =>
        if c.offset < inner ∧ inner ≤ byteSize c₁.text then term names c₁.text inner
        else .error (.fault .standstill)) c₁.offset
      = placed (Interpolants.operands (Interpolants.term names depth) (c₁.rest.length + 1) c₁) := by
  rw [hbehind.text]
  refine operands_offset h (fun inner hinner => ?_) advances_of_term hbehind (Nat.lt_succ_self _)
  rw [if_pos (hinner.offset_lt h), ← hinner.text]
  exact hterm inner hinner

/-- **A term is read by offsets**: no check fails, and the depth is never used up. -/
theorem term_offset {depth : Nat} (h : c.Inside) (hdepth : c.rest.length < depth) :
    term names c.text c.offset = placed (Interpolants.term names depth c) := by
  induction depth generalizing c with
  | zero => omega
  | succ depth ih =>
    have hblanks := h.skipBlanks
    rw [term, Interpolants.term, skipBlanks_offset h]
    show (peek c.skipBlanks.text c.skipBlanks.offset >>= _) = _
    rw [peek_offset hblanks]
    split
    · next heq =>
      rw [heq]
      exact malformed_offset hblanks _
    · next heq =>
      rw [heq]
      exact malformed_offset hblanks _
    · next rest heq =>
      rw [heq]
      have hinside := Cursor.advances_of_cons heq
      show (expect c.text c.skipBlanks.offset '(' >>= _) = _
      rw [expect_open h heq]
      show (token (c.goTo rest).text (c.goTo rest).offset >>= _) = _
      rw [token_offset (hinside.inside h)]
      -- the operator is read, and behind it the least word or the operands
      refine placed_bind fun op c₁ htoken => ?_
      have hbehind := hinside.trans (Cursor.advances_of_token htoken)
      dsimp only
      rw [← hbehind.text, leastBehind_offset (hbehind.inside h)]
      cases hleast : (if op = ['-'] then c₁.leastWord? else none) with
      | some c₂ => rfl
      | none =>
        show (operands c₁.text _ c₁.offset >>= _) = _
        rw [operands_behind h hbehind fun inner hinner => ih (hinner.inside h)
          (Nat.lt_of_lt_of_le hinner.shorter (Nat.le_of_lt_succ hdepth))]
        refine placed_bind fun es c₂ _ => ?_
        dsimp only
        cases applyNamed (String.ofList op) es <;> rfl
    · next next rest hclose hopen heq =>
      rw [heq]
      show (if some next = some ')' then _ else _) = _
      rw [if_neg (by simpa using hclose), if_neg (by simpa using hopen)]
      show (token c.skipBlanks.text c.skipBlanks.offset >>= _) = _
      rw [token_offset hblanks, Cursor.token_skipBlanks]
      refine placed_bind fun name c₁ _ => ?_
      dsimp only
      cases names.leaf name <;> rfl

/-- **The second pass by offsets.** -/
theorem wholeTerm_eq (names : Names) (text : List Char) :
    wholeTerm names text = refusing (Interpolants.wholeTerm names text) := by
  have hstart := Cursor.inside_ofText text
  have hterm : term names (Cursor.ofText text).text (Cursor.ofText text).offset
      = placed (Interpolants.term names (text.length + 1) (Cursor.ofText text)) :=
    term_offset hstart (Nat.lt_succ_self text.length)
  rw [Cursor.offset_ofText] at hterm
  rw [wholeTerm, Interpolants.wholeTerm]
  show (term names (Cursor.ofText text).text 0 >>= _) = _
  rw [hterm]
  cases hread : Interpolants.term names (text.length + 1) (Cursor.ofText text) with
  | error e => rfl
  | ok read =>
    obtain ⟨e, c⟩ := read
    have hadvances := advances_of_term hread
    have hinside := hadvances.inside hstart
    have htext : c.text = text := hadvances.text
    show (skipBlanks text c.offset >>= _) = _
    rw [← htext, skipBlanks_offset hinside]
    show (sliceFrom c.skipBlanks.text c.skipBlanks.offset >>= _) = _
    rw [sliceFrom_offset hinside.skipBlanks]
    show (if c.skipBlanks.rest.isEmpty then _ else _)
      = refusing (if c.skipBlanks.rest.isEmpty then _ else _)
    split
    · rfl
    · exact malformed_offset hinside.skipBlanks _

end

end Offsets

end Interpolants
