/-!
# Interpolants — operators

The binary operators come in four families. Each has one written form, binds with one strength, and
may associate to one side; the printer and the parser of formulas both read these three facts here.
-/

namespace Interpolants

/-- Comparisons. -/
inductive Comparison where
  | eq | ne | ge | gt | le | lt
deriving DecidableEq, Repr

/-- Integer arithmetic. The remainder of `div` is never negative, and `rem` is that remainder. -/
inductive Arith where
  | plus | minus | mul | div | rem
deriving DecidableEq, Repr

/-- Logical connectives. -/
inductive Connective where
  | and | or | equiv | implies | xor
deriving DecidableEq, Repr

/-- Bitvector operations. -/
inductive BitOp where
  | and | or | xor | shl | shr
deriving DecidableEq, Repr

/-- A binary operator. -/
inductive BinaryOp where
  | compare (op : Comparison)
  | arith (op : Arith)
  | logic (op : Connective)
  | bits (op : BitOp)
deriving DecidableEq, Repr

/-- A unary operator. -/
inductive UnaryOp where
  | not | minus | complement
deriving DecidableEq, Repr

/-- The kinds of quantifier. -/
inductive Quantifier where
  | all | some
deriving DecidableEq, Repr

/-- The side to which a chain of one operator is grouped without parentheses. -/
inductive Associativity where
  | left | right | none
deriving DecidableEq, Repr

/-! ## How strongly an expression binds

A number for each kind of expression; a higher one binds more tightly. -/

namespace Precedence

def quantifier : Nat := 0
def implication : Nat := 1
def disjunction : Nat := 2
def conjunction : Nat := 3
def comparison : Nat := 4
def negation : Nat := 5
def sum : Nat := 6
def bits : Nat := 7
def product : Nat := 8
def sign : Nat := 9
def leaf : Nat := 10

end Precedence

namespace BinaryOp

/-- The written form of an operator between its operands. -/
def symbol : BinaryOp → List Char
  | .compare .eq => ['=']
  | .compare .ne => ['!', '=']
  | .compare .ge => ['>', '=']
  | .compare .gt => ['>']
  | .compare .le => ['<', '=']
  | .compare .lt => ['<']
  | .arith .plus => ['+']
  | .arith .minus => ['-']
  | .arith .mul => ['*']
  | .arith .div => ['/']
  | .arith .rem => ['%']
  | .logic .and => ['&']
  | .logic .or => ['|']
  | .logic .equiv => ['<', '-', '>']
  | .logic .implies => ['-', '>']
  | .logic .xor => ['^']
  | .bits .and => ['&', 'b', 'v']
  | .bits .or => ['|', 'b', 'v']
  | .bits .xor => ['^', 'b', 'v']
  | .bits .shl => ['<', '<']
  | .bits .shr => ['>', '>']

/-- How strongly an operator binds. -/
def precedence : BinaryOp → Nat
  | .compare _ => Precedence.comparison
  | .arith .plus | .arith .minus => Precedence.sum
  | .arith _ => Precedence.product
  | .logic .and => Precedence.conjunction
  | .logic .or => Precedence.disjunction
  | .logic _ => Precedence.implication
  | .bits _ => Precedence.bits

/-- The side on which an operator chains: implications to the right, comparisons not at all. -/
def associativity : BinaryOp → Associativity
  | .logic .implies => .right
  | .compare _ => .none
  | _ => .left

end BinaryOp

namespace UnaryOp

/-- The sign in front of the operand. -/
def symbol : UnaryOp → Char
  | .not => '!'
  | .minus => '-'
  | .complement => '~'

/-- How strongly a sign binds. -/
def precedence : UnaryOp → Nat
  | .not => Precedence.negation
  | .minus | .complement => Precedence.sign

end UnaryOp

/-- The word that starts a quantified formula. -/
def Quantifier.symbol : Quantifier → List Char
  | .all => "forall".toList
  | .some => "exists".toList

end Interpolants
