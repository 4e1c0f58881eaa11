import Interpolants.Expr.Basic

/-!
# Interpolants — printing formulas

The infix form of a formula, with no more parentheses than reading it back needs. Casts, quantifiers
and bitvector operations have a form too, which is not read back.
-/

namespace Interpolants

namespace Expr

/-- How strongly the outermost construct of a formula binds. A negative constant counts as
signed. -/
def precedence : Expr → Nat
  | .quantified _ _ _ => Precedence.quantifier
  | .binary op _ _ => op.precedence
  | .unary op _ => op.precedence
  | .cast _ _ => Precedence.sign
  | .const (.int i) => if i < 0 then Precedence.sign else Precedence.leaf
  | .const _ | .var _ => Precedence.leaf

/-- Whether an operand of `op` that stands on the given side needs parentheses. Operators of one
strength chain only if they are the same one, on the side to which it associates. -/
def operandBracketed (op : BinaryOp) (side : Associativity) (operand : Expr) : Bool :=
  if op.precedence = operand.precedence then
    match operand with
    | .binary inner _ _ => !(inner == op && op.associativity == side)
    | _ => true
  else decide (operand.precedence < op.precedence)

/-- Whether the operand of a sign needs parentheses. Logical negations chain, arithmetic signs do
not. -/
def signedBracketed (op : UnaryOp) (operand : Expr) : Bool :=
  match op with
  | .not => decide (operand.precedence < op.precedence)
  | .minus | .complement => decide (operand.precedence ≤ op.precedence)

/-- Puts parentheses around a text where they are needed. -/
def bracket (needed : Bool) (cs : List Char) : List Char :=
  if needed then '(' :: cs ++ [')'] else cs

/-- The variables that a quantifier binds, with their types. -/
def binderChars (bound : List Variable) : List Char :=
  ", ".toList.intercalate (bound.map fun v => v.name.toList ++ ':' :: v.ty.chars)

/-- The infix form of a formula. -/
def chars : Expr → List Char
  | .var v => v.name.toList
  | .const c => c.chars
  | .unary op e => op.symbol :: bracket (signedBracketed op e) e.chars
  | .binary op left right =>
    bracket (operandBracketed op .left left) left.chars ++ ' ' :: op.symbol ++
      ' ' :: bracket (operandBracketed op .right right) right.chars
  | .cast e target =>
    '(' :: target.chars ++ ')' :: ' ' :: bracket (decide (e.precedence < Precedence.sign)) e.chars
  | .quantified q bound body =>
    q.symbol ++ ' ' :: binderChars bound ++ '.' :: ' ' :: body.chars

/-- The infix form of a formula, as text. -/
def render (e : Expr) : String :=
  String.ofList e.chars

end Expr

end Interpolants
