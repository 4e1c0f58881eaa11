import Interpolants.Text.Blank
import Interpolants.Text.Position

/-!
# Interpolants — readers

A `Reader` takes a value off the front of a text. Alternatives are tried in order and the first that
succeeds is kept, so a reader never gives two results. Beside the value, a reading notes how many
characters were left where some alternative got stuck, whether or not another one then succeeded; of
all such places a failure is reported at the furthest, which is the one with the fewest characters
left.
-/

namespace Interpolants.Text

/-- What reading the front of a text gives: the value and the characters behind it, if any
alternative succeeded, and the number of characters left at the furthest place where one failed. -/
structure Reading (α : Type) where
  value : Option (α × List Char)
  stuck : Option Nat

/-- Takes a value off the front of a text. -/
def Reader (α : Type) : Type :=
  List Char → Reading α

namespace Reader

/-- Of two places where a reader got stuck, the further one. -/
def furthest (a b : Option Nat) : Option Nat :=
  a.merge min b

/-- Reads nothing. -/
protected def pure {α : Type} (a : α) : Reader α := fun cs =>
  ⟨some (a, cs), none⟩

/-- Reads one thing and then, depending on it, another. -/
protected def bind {α β : Type} (first : Reader α) (next : α → Reader β) : Reader β := fun cs =>
  match first cs with
  | ⟨none, stuck⟩ => ⟨none, stuck⟩
  | ⟨some (a, rest), stuck⟩ => ⟨(next a rest).value, furthest stuck (next a rest).stuck⟩

instance : Monad Reader where
  pure := Reader.pure
  bind := Reader.bind

/-- Gets stuck at the place it is called. -/
def fail {α : Type} : Reader α := fun cs =>
  ⟨none, some cs.length⟩

/-- The second reader is tried where the first fails. -/
def orElse {α : Type} (first second : Reader α) : Reader α := fun cs =>
  match first cs with
  | ⟨some result, stuck⟩ => ⟨some result, stuck⟩
  | ⟨none, stuck⟩ => ⟨(second cs).value, furthest stuck (second cs).stuck⟩

/-- The first of some readers that succeeds; with none to try, there is nothing to get stuck at. -/
def firstOf {α : Type} : List (Reader α) → Reader α
  | [] => fun _ => ⟨none, none⟩
  | reader :: others => orElse reader (firstOf others)

/-- Reads a value, or nothing where the reader fails. -/
def optional {α : Type} (reader : Reader α) : Reader (Option α) := fun cs =>
  match reader cs with
  | ⟨some (a, rest), stuck⟩ => ⟨some (some a, rest), stuck⟩
  | ⟨none, stuck⟩ => ⟨some (none, cs), stuck⟩

/-- Reads the characters up to the first without the property. -/
def takeWhile (p : Char → Bool) : Reader (List Char) := fun cs =>
  ⟨some (cs.takeWhile p, cs.dropWhile p), none⟩

/-- Skips the spaces and line ends between tokens. -/
def spaces : Reader Unit := fun cs =>
  ⟨some ((), cs.dropWhile isSpace), none⟩

/-- Reads one character with the property. -/
def one (p : Char → Bool) : Reader Char
  | [] => fail []
  | c :: cs => if p c then ⟨some (c, cs), none⟩ else fail (c :: cs)

/-- Reads a fixed word and gets stuck at its start. -/
def word (expected : List Char) : Reader Unit := fun cs =>
  if expected.isPrefixOf cs then ⟨some ((), cs.drop expected.length), none⟩ else fail cs

/-- Succeeds where the word does not come next. Reads nothing and never counts as getting stuck. -/
def notAhead (unwanted : List Char) : Reader Unit := fun cs =>
  if unwanted.isPrefixOf cs then ⟨none, none⟩ else ⟨some ((), cs), none⟩

/-- Succeeds behind the last character only. -/
def endOfText : Reader Unit
  | [] => ⟨some ((), []), none⟩
  | c :: cs => fail (c :: cs)

/-- Reads at most `limit` values with spaces before each. -/
def manyUpTo {α : Type} (reader : Reader α) : Nat → Reader (List α)
  | 0 => Reader.pure []
  | limit + 1 => do
    match ← optional (do spaces; reader) with
    | none => return []
    | some a => return a :: (← manyUpTo reader limit)

/-- Reads values with spaces before each, as long as they come. For a reader that takes at least one
character the limit is never reached, since there are no more values than characters. -/
def many {α : Type} (reader : Reader α) : Reader (List α) := fun cs =>
  manyUpTo reader (cs.length + 1) cs

/-- Reads a whole text with spaces around it, or says where the furthest alternative got stuck. -/
def run {α : Type} (reader : Reader α) (text : List Char) : Except Position α :=
  match (do spaces; let a ← reader; spaces; endOfText; return a : Reader α) text with
  | ⟨some (a, _), _⟩ => .ok a
  | ⟨none, stuck⟩ => .error (Position.after (text.take (text.length - stuck.getD text.length)))

end Reader

end Interpolants.Text
