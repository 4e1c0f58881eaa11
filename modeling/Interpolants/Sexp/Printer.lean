import Interpolants.Number.Decimal
import Interpolants.Sexp.Basic

/-!
# Interpolants — printing s-expressions

The elements of a list are separated by one space. A comment runs to the end of its line, so inside
a list it stands on a line of its own.
-/

namespace Interpolants

/-- The characters that a bare symbol cannot hold. -/
def Atom.isSpecial (c : Char) : Bool :=
  c == ' ' || c == '"' || c == '\'' || c == '(' || c == ')'

/-- The written form of an atom. A symbol with a special character stands between pipes; failing
that, one with a pipe stands between double quotes. -/
def Atom.chars : Atom → List Char
  | .numeral n => Decimal.digits n.toNat
  | .symbol s =>
    if s.toList.any isSpecial then '|' :: s.toList ++ ['|']
    else if s.toList.contains '|' then '"' :: s.toList ++ ['"']
    else s.toList

namespace Sexp

mutual

/-- The written form of an s-expression. -/
def chars : Sexp → List Char
  | .atom a => a.chars
  | .comment text => ';' :: text.toList
  | .list items => '(' :: itemsChars false items ++ [')']

/-- The written forms of a list's elements. `spaced` says whether a space goes before the next. -/
def itemsChars (spaced : Bool) : List Sexp → List Char
  | [] => []
  | .comment text :: rest => '\n' :: ';' :: text.toList ++ '\n' :: itemsChars false rest
  | item :: rest => (if spaced then [' '] else []) ++ chars item ++ itemsChars true rest

end

/-- The written form of an s-expression, as text. -/
def render (t : Sexp) : String :=
  String.ofList t.chars

end Sexp

end Interpolants
