import Interpolants.Expr.Basic
import Interpolants.Number.Word
import Interpolants.Text.Reader

/-!
# Interpolants — reading formulas

Infix formulas over declared variables are read by precedence climbing: `climb` reads an operand and
then extends it by every operator that binds at least as strongly as asked. A sign is accepted
wherever an operand is, whatever the strength asked for.

Each recursive call follows at least one character, so a text's length bounds their depth; `fuel`
counts them.
-/

namespace Interpolants

namespace Expr

open Text

/-- The characters that start an identifier. -/
def isIdentStart (c : Char) : Bool :=
  c.isAlpha || c == '_'

/-- The characters that continue an identifier. -/
def isIdentChar (c : Char) : Bool :=
  isIdentStart c || c.isDigit || c == '.' || c == '\''

/-- Reads an identifier. -/
def identifier : Reader String := do
  let first ← Reader.one isIdentStart
  return String.ofList (first :: (← Reader.takeWhile isIdentChar))

/-- Reads a numeral that fits in a signed word. One that does not is refused behind its digits. -/
def numeral : Reader Expr := do
  let first ← Reader.one Char.isDigit
  match Word.signed? (Decimal.value (first :: (← Reader.takeWhile Char.isDigit))) with
  | some i => return integer i
  | none => Reader.fail

/-- Reads a truth value or a declared variable. Another identifier is refused behind its end. -/
def leaf (declared : Registry) : Reader Expr := do
  let name ← identifier
  if name = "true" then return literal true
  else if name = "false" then return literal false
  else
    match declared.find? name with
    | some v => return .var v
    | none => Reader.fail

/-- The operators between operands, in the order in which they are tried. -/
def infixOps : List BinaryOp :=
  [.logic .implies, .logic .equiv, .logic .xor, .logic .or, .logic .and, .compare .eq, .compare .ne,
    .compare .le, .compare .lt, .compare .ge, .compare .gt, .arith .plus, .arith .minus,
    .arith .mul,
    .arith .div, .arith .rem]

/-- What must not follow an operator's symbol, which would else be the start of an arrow. -/
def notBehind : BinaryOp → Option (List Char)
  | .compare .lt => some ['-', '>']
  | .arith .minus => some ['>']
  | _ => none

/-- Reads an operator's symbol with spaces around it. -/
def infixSymbol (op : BinaryOp) : Reader Unit := do
  Reader.spaces
  Reader.word op.symbol
  match notBehind op with
  | some arrow => Reader.notAhead arrow
  | none => pure ()
  Reader.spaces

/-- How strongly the right operand of an operator must bind. -/
def rightStrength (op : BinaryOp) : Nat :=
  if op.associativity = .right then op.precedence else op.precedence + 1

mutual

/-- Reads an operand and every operator behind it that binds at least as strongly as `strength`. -/
def climb (declared : Registry) : Nat → Nat → Reader Expr
  | 0, _ => Reader.fail
  | fuel + 1, strength => do
    extend declared fuel strength (← operand declared fuel)

/-- Reads a signed operand, a numeral, a name or a formula in parentheses. -/
def operand (declared : Registry) : Nat → Reader Expr
  | 0 => Reader.fail
  | fuel + 1 =>
    Reader.firstOf [
      do
        Reader.word ['!']
        Reader.spaces
        return negation (← climb declared fuel (Precedence.negation + 1)),
      do
        Reader.word ['-']
        Reader.spaces
        return minus (← climb declared fuel (Precedence.sign + 1)),
      numeral,
      leaf declared,
      do
        Reader.word ['(']
        Reader.spaces
        let e ← climb declared fuel Precedence.quantifier
        Reader.spaces
        Reader.word [')']
        return e]

/-- Extends a left operand by the operators behind it that bind at least as strongly as
`strength`. -/
def extend (declared : Registry) : Nat → Nat → Expr → Reader Expr
  | 0, _, _ => Reader.fail
  | fuel + 1, strength, left => do
    let step (op : BinaryOp) : Reader Expr := do
      infixSymbol op
      return .binary op left (← climb declared fuel (rightStrength op))
    let ops := infixOps.filter fun op => decide (strength ≤ op.precedence)
    -- an operator counts only together with its right operand: if that cannot be read, the others
    -- are still tried
    match ← Reader.optional (Reader.firstOf (ops.map step)) with
    | some e => extend declared fuel strength e
    | none => return left

end

/-- Reads a formula. -/
def formula (declared : Registry) : Reader Expr := fun cs =>
  climb declared (2 * cs.length + 2) Precedence.quantifier cs

/-- The formula that a text is the infix form of, with spaces around it. Names are looked up in
`declared`, and one that is not found there is an error. -/
def parse (declared : Registry) (text : String) : Except Position Expr :=
  (formula declared).run text.toList

end Expr

end Interpolants
