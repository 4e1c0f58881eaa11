import Interpolants.Decoding.Application
import Interpolants.Decoding.Cursor
import Interpolants.Number.Decimal
import Interpolants.Number.Word

/-!
# Interpolants — decoding terms without let blocks

A term is a leaf or an application in prefix form. The least signed word has no numeral of its own,
since its magnitude does not fit: the application of a minus sign to that magnitude stands for it.
-/

namespace Interpolants

/-- Names with the formulas they stand for, the innermost first. -/
abbrev Bindings : Type :=
  List (String × Expr)

/-- What names mean while a term is read: let-bound names come first, then the placeholders of let
blocks decoded before, then the declared variables. -/
structure Names where
  scope : Bindings
  blocks : Bindings
  declared : Registry

/-- The formula that a name stands for. -/
def Names.find? (names : Names) (name : String) : Option Expr :=
  match names.scope.lookup name with
  | some e => some e
  | none =>
    match names.blocks.lookup name with
    | some e => some e
    | none => (names.declared.find? name).map .var

/-- The formula of a leaf: a truth value, a numeral or a name. -/
def Names.leaf (names : Names) (token : List Char) : Except DecodeError Expr :=
  if token = "true".toList then .ok (.literal true)
  else if token = "false".toList then .ok (.literal false)
  else if Decimal.isNumeral token then
    match Word.signed? (Decimal.value token) with
    | some i => .ok (.integer i)
    | none => .error (.numeralRange token)
  else
    match names.find? (unquote token) with
    | some e => .ok e
    | none => .error (.unknownVariable (unquote token))

/-- Skips the magnitude of the least signed word and a closing parenthesis, if they come next. -/
def Cursor.leastWord? (c : Cursor) : Option Cursor :=
  match c.token with
  | .ok (token, behind) =>
    if Decimal.isNumeral token && Decimal.value token == Int64.minValue.toInt.natAbs then
      behind.eat? ')'
    else none
  | .error _ => none

/-- Reads operands up to the closing parenthesis, at most `limit` of them. -/
def operands (read : Cursor → Except DecodeError (Expr × Cursor)) :
    Nat → Cursor → Except DecodeError (List Expr × Cursor)
  | 0, c => .error (c.flaw .unclosed)
  | limit + 1, c =>
    match c.skipBlanks.rest with
    | [] => .error (c.skipBlanks.flaw .unclosed)
    | ')' :: rest => .ok ([], c.goTo rest)
    | _ :: _ => do
      let (e, c) ← read c.skipBlanks
      let (es, c) ← operands read limit c
      return (e :: es, c)

/-- Reads a term whose applications are nested at most `depth` deep. -/
def term (names : Names) : Nat → Cursor → Except DecodeError (Expr × Cursor)
  | 0, c => .error (c.flaw .expectedTerm)
  | depth + 1, c =>
    match c.skipBlanks.rest with
    | [] => .error (c.skipBlanks.flaw .expectedTerm)
    | ')' :: _ => .error (c.skipBlanks.flaw .unexpectedClose)
    | '(' :: rest => do
      let (op, c) ← (c.goTo rest).token
      -- the operator is taken as it is written: a quoted one has no meaning
      match if op = ['-'] then c.leastWord? else none with
      | some c => return (.integer Int64.minValue, c)
      | none => do
        let (es, c) ← operands (term names depth) (c.rest.length + 1) c
        return (← applyNamed (String.ofList op) es, c)
    | _ :: _ => do
      let (token, c) ← c.token
      return (← names.leaf token, c)

/-- The formula of a whole text without let blocks. -/
def wholeTerm (names : Names) (text : List Char) : Except DecodeError Expr := do
  let (e, c) ← term names (text.length + 1) (Cursor.ofText text)
  if c.skipBlanks.rest.isEmpty then return e
  else throw (c.skipBlanks.flaw .trailing)

end Interpolants
