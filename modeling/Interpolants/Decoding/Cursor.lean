import Interpolants.Decoding.Error
import Interpolants.Text.Blank

/-!
# Interpolants — walking through a term's text

A `Cursor` stands somewhere in a text. Tokens end at blanks and parentheses; a symbol between pipes
may hold both. The end of a parenthesised term is found by counting parentheses, where those between
two pipes do not count.
-/

namespace Interpolants

open Text

/-- A text and the part of it still to be read. -/
structure Cursor where
  text : List Char
  rest : List Char
deriving DecidableEq, Repr

/-- Whether a character ends a token. -/
def isDelimiter (c : Char) : Bool :=
  isBlank c || c == '(' || c == ')'

/-- The number of open parentheses behind a character. -/
def depthAfter (depth : Nat) (quoted : Bool) (c : Char) : Nat :=
  if quoted then depth
  else if c = '(' then depth + 1
  else if c = ')' then depth - 1
  else depth

/-- Splits a text behind the parenthesis that closes the first one. `depth` parentheses are open,
and `quoted` says whether an odd number of pipes has come by. -/
def closing (depth : Nat) (quoted : Bool) : List Char → Option (List Char × List Char)
  | [] => none
  | c :: cs =>
    if c = ')' ∧ quoted = false ∧ depth ≤ 1 then some ([c], cs)
    else
      (closing (depthAfter depth quoted c) (if c = '|' then !quoted else quoted) cs).map
        fun split => (c :: split.1, split.2)

/-- Splits a text that starts with a parenthesis behind the matching one. -/
def enclosed (cs : List Char) : Option (List Char × List Char) :=
  closing 0 false cs

/-- The name that a token stands for, without the pipes around it. -/
def unquote (token : List Char) : String :=
  match token with
  | '|' :: rest => String.ofList (if rest.getLast? = some '|' then rest.dropLast else token)
  | _ => String.ofList token

namespace Cursor

/-- Stands at the start of a text. -/
def ofText (text : List Char) : Cursor :=
  ⟨text, text⟩

/-- Goes on to a later part of the text. -/
def goTo (c : Cursor) (rest : List Char) : Cursor :=
  { c with rest := rest }

def skipBlanks (c : Cursor) : Cursor :=
  c.goTo (trimStart c.rest)

@[simp] theorem goTo_rest (c : Cursor) (rest : List Char) : (c.goTo rest).rest = rest := rfl

@[simp] theorem skipBlanks_rest (c : Cursor) : c.skipBlanks.rest = trimStart c.rest := rfl

/-- The error for a flaw at this place. -/
def flaw (c : Cursor) (what : Flaw) : DecodeError :=
  .flaw what (if c.rest.isEmpty then .atEnd c.text else .before c.rest)

/-- Skips blanks and a character, if it comes next. -/
def eat? (c : Cursor) (wanted : Char) : Option Cursor :=
  match c.skipBlanks.rest with
  | next :: rest => if next = wanted then some (c.goTo rest) else none
  | [] => none

/-- Skips blanks and a character that has to come next. -/
def expect (c : Cursor) (wanted : Char) : Except DecodeError Cursor :=
  match c.eat? wanted with
  | some c => .ok c
  | none => .error (c.skipBlanks.flaw (.expected wanted))

/-- Takes a token behind blanks. A symbol between pipes keeps them. -/
def token (c : Cursor) : Except DecodeError (List Char × Cursor) :=
  match c.skipBlanks.rest with
  | '|' :: quoted =>
    if quoted.contains '|' then
      .ok ('|' :: quoted.takeWhile (· != '|') ++ ['|'],
        c.goTo ((quoted.dropWhile (· != '|')).drop 1))
    else .error (c.skipBlanks.flaw .unterminatedQuote)
  | cs =>
    match cs.takeWhile fun ch => !isDelimiter ch with
    | [] => .error (c.skipBlanks.flaw .expectedSymbol)
    | ch :: more => .ok (ch :: more, c.goTo (cs.dropWhile fun ch => !isDelimiter ch))

/-- Takes the text of one term behind blanks: a token, or everything up to the matching
parenthesis. -/
def span (c : Cursor) : Except DecodeError (List Char × Cursor) :=
  match c.skipBlanks.rest with
  | '(' :: cs =>
    match enclosed ('(' :: cs) with
    | some (term, rest) => .ok (term, c.goTo rest)
    | none => .error (.unbalanced ('(' :: cs))
  | _ => c.token

end Cursor

/-- A text is split without loss. -/
theorem append_of_closing {depth : Nat} {quoted : Bool} {cs inside rest : List Char}
    (h : closing depth quoted cs = some (inside, rest)) : inside ++ rest = cs := by
  induction cs generalizing depth quoted inside rest with
  | nil => simp [closing] at h
  | cons c cs ih =>
    unfold closing at h
    split at h
    · cases h
      rfl
    · obtain ⟨⟨a, b⟩, hab, heq⟩ := Option.map_eq_some_iff.1 h
      cases heq
      simp [ih hab]

/-- A text that is enclosed in parentheses ends with one. -/
theorem getLast?_of_closing {depth : Nat} {quoted : Bool} {cs inside rest : List Char}
    (h : closing depth quoted cs = some (inside, rest)) : inside.getLast? = some ')' := by
  induction cs generalizing depth quoted inside rest with
  | nil => simp [closing] at h
  | cons c cs ih =>
    unfold closing at h
    split at h
    · rename_i hc
      cases h
      simp [hc.1]
    · obtain ⟨⟨a, b⟩, hab, heq⟩ := Option.map_eq_some_iff.1 h
      cases heq
      simp [List.getLast?_cons, ih hab]

end Interpolants
