import Interpolants.Text.Utf8

/-!
# Interpolants — positions in a text

A reader reports a failure by the line, the column and the byte at which it stopped.
-/

namespace Interpolants.Text

/-- A place in a text. Lines and columns count from one, a column counts characters, and `offset`
counts the bytes of the UTF-8 form. -/
structure Position where
  line : Nat
  column : Nat
  offset : Nat
deriving DecidableEq, Repr

/-- The place just behind the characters `read`, which start the text. -/
def Position.after (read : List Char) : Position where
  line := read.count '\n' + 1
  column := (read.reverse.takeWhile (· != '\n')).length + 1
  offset := (utf8 read).length

theorem Position.after_nil : Position.after [] = ⟨1, 1, 0⟩ := rfl

end Interpolants.Text
