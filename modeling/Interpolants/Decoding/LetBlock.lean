import Interpolants.Decoding.Cursor

/-!
# Interpolants — finding let blocks

A let block is found by its first characters and cut out by counting parentheses. Its bindings and
its body are again texts.
-/

namespace Interpolants

open Text

/-- Splits a text before its first let block: an opening parenthesis and the word `let`, with a
blank or another parenthesis behind. -/
def splitAtLet : List Char → Option (List Char × List Char)
  | [] => none
  | '(' :: 'l' :: 'e' :: 't' :: c :: cs =>
    if isBlank c || c == '(' then some ([], '(' :: 'l' :: 'e' :: 't' :: c :: cs)
    else (splitAtLet ('l' :: 'e' :: 't' :: c :: cs)).map fun split => ('(' :: split.1, split.2)
  | c :: cs => (splitAtLet cs).map fun split => (c :: split.1, split.2)

/-- The parts of a let block. The bindings are those before the first flaw, which then takes the
place of the body. -/
structure LetBlock where
  bindings : List (String × List Char)
  body : Except DecodeError (List Char)

namespace LetBlock

/-- The body: what is left before the block's own closing parenthesis. -/
def bodyAt (c : Cursor) : Except DecodeError (List Char) :=
  if c.rest.getLast? = some ')' then .ok c.rest.dropLast else .error (c.flaw .expectedBody)

/-- Takes the start of a binding: its parenthesis, its name and the text of its term. -/
def binding (c : Cursor) : Except DecodeError ((String × List Char) × Cursor) := do
  let c ← c.expect '('
  let (name, c) ← c.token
  let (bound, c) ← c.span
  return ((unquote name, bound), c)

/-- Takes at most `limit` bindings and the body behind them. -/
def bindingsAt : Nat → Cursor → LetBlock
  | 0, c => ⟨[], .error (c.flaw (.expected '('))⟩
  | limit + 1, c =>
    match c.eat? ')' with
    | some c => ⟨[], bodyAt c⟩
    | none =>
      match binding c with
      | .error e => ⟨[], .error e⟩
      | .ok (entry, c) =>
        match c.expect ')' with
        | .error e => ⟨[entry], .error e⟩
        | .ok c => ⟨entry :: (bindingsAt limit c).bindings, (bindingsAt limit c).body⟩

/-- Takes the parenthesis of the block, the word `let` and the parenthesis of the bindings. -/
def header (c : Cursor) : Except DecodeError Cursor := do
  let c ← c.expect '('
  let (_, c) ← c.token
  c.expect '('

/-- The parts of the let block that a text holds. -/
def ofText (block : List Char) : LetBlock :=
  match header (Cursor.ofText block) with
  | .error e => ⟨[], .error e⟩
  | .ok c => bindingsAt (block.length + 1) c

end LetBlock

/-- A text is split without loss. -/
theorem append_of_splitAtLet {cs before block : List Char}
    (h : splitAtLet cs = some (before, block)) : before ++ block = cs := by
  fun_induction splitAtLet cs generalizing before block with
  | case1 => cases h
  | case2 c cs hc =>
    cases h
    rfl
  | case3 c cs hc ih =>
    obtain ⟨⟨a, b⟩, hab, heq⟩ := Option.map_eq_some_iff.1 h
    cases heq
    simp [ih hab]
  | case4 c cs _ ih =>
    obtain ⟨⟨a, b⟩, hab, heq⟩ := Option.map_eq_some_iff.1 h
    cases heq
    simp [ih hab]

end Interpolants
