/-!
# Interpolants — decoding errors

Why the text of a term cannot be decoded. A malformed text is reported with the part of it that was
still to be read, or as a whole if it ended too soon. Decoding replaces parts of a text before it
reads the rest, so the text reported is the one at hand and not always the one given.
-/

namespace Interpolants

/-- What is wrong at some place of a text. -/
inductive Flaw where
  /-- Another character was needed. -/
  | expected (c : Char)
  /-- A quoted symbol without its closing pipe. -/
  | unterminatedQuote
  | expectedSymbol
  | expectedTerm
  /-- A closing parenthesis where a term should start. -/
  | unexpectedClose
  /-- The text ends inside an application. -/
  | unclosed
  /-- There is more text behind the term. -/
  | trailing
  | expectedBody
deriving DecidableEq, Repr

/-- The wording of a flaw. -/
def Flaw.message : Flaw → String
  | .expected c => "expected `" ++ c.toString ++ "`"
  | .unterminatedQuote => "unterminated `|`"
  | .expectedSymbol => "expected a symbol"
  | .expectedTerm => "expected a term"
  | .unexpectedClose => "unexpected `)`"
  | .unclosed => "unclosed `(`"
  | .trailing => "unexpected text after term"
  | .expectedBody => "expected a let body"

/-- Where a flaw is: before some remaining text, or at the end of a text. -/
inductive Spot where
  | before (rest : List Char)
  | atEnd (whole : List Char)
deriving DecidableEq, Repr

/-- The wording of a spot. -/
def Spot.message : Spot → String
  | .before rest => "at `" ++ String.ofList rest ++ "`"
  | .atEnd whole => "at end of `" ++ String.ofList whole ++ "`"

/-- How many operands an operator takes. -/
inductive Operands where
  | exactly (n : Nat)
  | atLeast (n : Nat)
deriving DecidableEq, Repr

/-- The wording of a number of operands. -/
def Operands.message : Operands → String
  | .exactly n => n.repr
  | .atLeast n => "at least " ++ n.repr

/-- Why a term cannot be decoded. -/
inductive DecodeError where
  /-- The text breaks off or goes on in the wrong way. -/
  | flaw (what : Flaw) (spot : Spot)
  /-- A parenthesis is never closed. -/
  | unbalanced (text : List Char)
  /-- A numeral does not fit in a signed word. -/
  | numeralRange (token : List Char)
  | unknownOperator (op : String)
  /-- An operator with the wrong number of operands. -/
  | arity (op : String) (expected : Operands) (found : Nat)
  /-- A name that is neither bound nor declared. -/
  | unknownVariable (name : String)
deriving DecidableEq

/-- The wording of a decoding error. -/
def DecodeError.message : DecodeError → String
  | .flaw what spot => "malformed term: " ++ what.message ++ " " ++ spot.message
  | .unbalanced text =>
    "malformed term: unbalanced parentheses in `" ++ String.ofList text ++ "`"
  | .numeralRange token =>
    "malformed term: numeral " ++ String.ofList token ++ " is out of range"
  | .unknownOperator op => "unknown operator " ++ op
  | .arity op expected found =>
    op ++ " expects " ++ expected.message ++ " operands but got " ++ found.repr
  | .unknownVariable name => "unknown variable " ++ name

end Interpolants
