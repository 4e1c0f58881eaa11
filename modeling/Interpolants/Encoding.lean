import Interpolants.Expr.Printer
import Interpolants.Number.Word
import Interpolants.Script.Command

/-!
# Interpolants — encoding formulas as solver terms

Encoding a formula declares each of its variables where it is first reached, and asserts its bounds
right after the declaration. An `Encoder` keeps what is declared and what has been sent, also when
encoding stops with an error: the variables reached before the error stay declared.
-/

namespace Interpolants

/-- Why a formula cannot be sent to a solver. -/
inductive EncodeError where
  /-- A construct without an encoding, and the formula built by it. -/
  | construct (what : Construct) (e : Expr)
  /-- A connective without an encoding. -/
  | connective (op : Connective)
  /-- A variable whose type is no sort of the solver. -/
  | variableType (v : Variable)
  /-- A constant whose type is no sort of the solver. -/
  | constantType (c : Value)
  /-- A variable declared with another type before. -/
  | conflict (name : String) (declared used : Ty)
  /-- An assertion that is not boolean. -/
  | nonBoolean (e : Expr)
deriving DecidableEq

/-- The wording of an encoding error. -/
def EncodeError.message : EncodeError → String
  | .construct what e => "cannot encode " ++ what.name ++ " `" ++ e.render ++ "`"
  | .connective op => "unsupported operator " ++ String.ofList (BinaryOp.logic op).symbol
  | .variableType v => "variable " ++ v.name ++ " has unsupported type " ++ v.ty.render
  | .constantType c => "constant " ++ c.render ++ " has unsupported type " ++ c.ty.render
  | .conflict name declared used =>
    "variable " ++ name ++ " is declared as " ++ declared.render ++ " but used as " ++ used.render
  | .nonBoolean e => "cannot assert non-boolean " ++ e.render

/-- What is declared in a session and the commands sent to it, oldest first. -/
structure Encoder where
  declared : Registry
  sent : List Sexp
deriving DecidableEq

namespace Encoder

/-- A session in which nothing is declared. -/
def empty : Encoder :=
  ⟨.empty, []⟩

/-- Sends a command. -/
def send (enc : Encoder) (command : Sexp) : Encoder :=
  { enc with sent := enc.sent ++ [command] }

end Encoder

/-- A step that may fail and keeps the encoder either way. -/
abbrev Encode (α : Type) : Type :=
  ExceptT EncodeError (StateM Encoder) α

/-- An integer as a term. Solvers have no negative numerals, so a minus sign is applied instead. -/
def intTerm (i : Int64) : Sexp :=
  if i < 0 then .app "-" [.numeral (Word.magnitude i)] else .numeral (Word.magnitude i)

namespace Ty

/-- The solver's sort for a type. -/
def sort? : Ty → Option String
  | .bool => some "Bool"
  | .int _ => some "Int"
  | .bitvec _ => none

end Ty

/-- The assertions that keep a variable within its bounds. -/
def Variable.boundAssertions (v : Variable) : List Sexp :=
  match v.ty with
  | .int bounds =>
    (bounds.min.toList.map fun lo =>
        Command.assertTerm (.app ">=" [.symbol v.name, intTerm lo])) ++
      bounds.max.toList.map fun hi =>
        Command.assertTerm (.app "<=" [.symbol v.name, intTerm hi])
  | _ => []

/-- What a session is told about a variable of a sort: its declaration, then its bounds. -/
def Variable.declaration (v : Variable) (sort : String) : List Sexp :=
  Command.declareFun v.name sort :: v.boundAssertions

/-- Declares a variable unless its name is already declared with the same type. -/
def declare (v : Variable) : Encode Unit := do
  let enc ← get
  match enc.declared.find? v.name with
  | some known =>
    if known.ty = v.ty then return
    else throw (.conflict v.name known.ty v.ty)
  | none =>
    match v.ty.sort? with
    | none => throw (.variableType v)
    | some sort =>
      -- a refused variable is neither declared nor sent
      set ((v.declaration sort).foldl Encoder.send { enc with declared := enc.declared.insert v })

namespace Comparison

/-- A comparison between two terms; one of inequality is the negation of an equality. -/
def term (op : Comparison) (left right : Sexp) : Sexp :=
  match op with
  | .eq => .app "=" [left, right]
  | .ne => .app "not" [.app "=" [left, right]]
  | .ge => .app ">=" [left, right]
  | .gt => .app ">" [left, right]
  | .le => .app "<=" [left, right]
  | .lt => .app "<" [left, right]

end Comparison

/-- The solver's name of an integer operation. -/
def Arith.head : Arith → String
  | .plus => "+"
  | .minus => "-"
  | .mul => "*"
  | .div => "div"
  | .rem => "mod"

/-- The solver's name of a connective, if it has one here. -/
def Connective.head? : Connective → Option String
  | .and => some "and"
  | .or => some "or"
  | .equiv => some "="
  | .implies | .xor => none

namespace Expr

/-- The term for a formula. A construct that has none is refused before its operands are reached. -/
def encode : Expr → Encode Sexp
  | .var v => do
    declare v
    return .symbol v.name
  | .const (.bool b) => return .symbol (if b then "true" else "false")
  | .const (.int i) => return intTerm i
  | .const (.bitvec value width) => throw (.constantType (.bitvec value width))
  | .unary .not e => return .app "not" [← e.encode]
  | .unary .minus e => return .app "-" [← e.encode]
  | .unary .complement e => throw (.construct .bitvector (.unary .complement e))
  | .binary (.compare op) left right => return op.term (← left.encode) (← right.encode)
  | .binary (.arith op) left right => return .app op.head [← left.encode, ← right.encode]
  | .binary (.logic op) left right =>
    match op.head? with
    | some head => return .app head [← left.encode, ← right.encode]
    | none => throw (.connective op)
  | .binary (.bits op) left right => throw (.construct .bitvector (.binary (.bits op) left right))
  | .cast e target => throw (.construct .cast (.cast e target))
  | .quantified q bound body => throw (.construct .quantifier (.quantified q bound body))

/-- The term for a formula to be asserted, which has to be boolean. -/
def encodeAssertion (e : Expr) : Encode Sexp :=
  if e.ty.isBool then e.encode else throw (.nonBoolean e)

end Expr

/-- Runs a step on an encoder. -/
def Encoder.run {α : Type} (enc : Encoder) (step : Encode α) : Except EncodeError α × Encoder :=
  StateT.run (ExceptT.run step) enc

end Interpolants
