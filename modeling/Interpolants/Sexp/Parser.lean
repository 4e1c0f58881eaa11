import Interpolants.Number.Decimal
import Interpolants.Number.Word
import Interpolants.Sexp.Basic
import Interpolants.Text.Reader

/-!
# Interpolants — reading s-expressions

A symbol is bare, or stands between double quotes or pipes, which it then may not hold. A comment
starts with a semicolon and ends with its line.
-/

namespace Interpolants

namespace Sexp

open Text

/-- The characters that start a bare symbol. -/
def isSymbolStart (c : Char) : Bool :=
  c.isAlpha || "_'<>:=$@+-*/.~!?%^&".toList.contains c

/-- The characters that continue a bare symbol. -/
def isSymbolChar (c : Char) : Bool :=
  isSymbolStart c || c.isDigit || c == '#'

/-- Reads the characters between two marks. -/
def between (mark : Char) : Reader String := do
  Reader.word [mark]
  let content ← Reader.takeWhile (· != mark)
  Reader.word [mark]
  return String.ofList content

/-- Reads a bare symbol. -/
def bareSymbol : Reader String := do
  let first ← Reader.one isSymbolStart
  return String.ofList (first :: (← Reader.takeWhile isSymbolChar))

/-- Reads a numeral that fits in an unsigned word. One that does not is refused behind its
digits. -/
def natural : Reader UInt64 := do
  let first ← Reader.one Char.isDigit
  match Word.unsigned? (Decimal.value (first :: (← Reader.takeWhile Char.isDigit))) with
  | some n => return n
  | none => Reader.fail

/-- Reads an atom. -/
def anyAtom : Reader Sexp :=
  Reader.firstOf [
    do return symbol (← between '"'),
    do return symbol (← between '|'),
    do return symbol (← bareSymbol),
    do return numeral (← natural)]

/-- Reads a comment with the end of its line. -/
def lineComment : Reader Sexp := do
  Reader.word [';']
  let text ← Reader.takeWhile (· != '\n')
  Reader.word ['\n']
  return .comment (String.ofList text)

/-- Reads an s-expression whose lists are nested at most `depth` deep. -/
def nested : Nat → Reader Sexp
  | 0 => Reader.fail
  | depth + 1 =>
    Reader.firstOf [
      anyAtom,
      lineComment,
      do
        Reader.word ['(']
        let items ← Reader.many (nested depth)
        Reader.spaces
        Reader.word [')']
        return .list items]

/-- Reads an s-expression. Lists are not nested deeper than there are characters. -/
def term : Reader Sexp := fun cs =>
  nested (cs.length + 1) cs

/-- The s-expression that a text holds, with spaces around it. -/
def parse (text : String) : Except Position Sexp :=
  term.run text.toList

/-- The s-expressions that a text holds, with spaces around them, as in a reply of many lines. -/
def parseMany (text : String) : Except Position (List Sexp) :=
  Reader.run (fun cs => Reader.many (nested (cs.length + 1)) cs) text.toList

end Sexp

end Interpolants
