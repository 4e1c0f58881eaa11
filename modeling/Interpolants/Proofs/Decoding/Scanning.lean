import Interpolants.Decoding.LetBlock
import Interpolants.Proofs.Lists
import Mathlib.Data.List.TakeWhile

/-!
# Interpolants — scanning for let blocks and parentheses

A term's text is scanned in three ways: for let blocks, for matching parentheses and for tokens. The
first two scans go through a text character by character. Here are the pieces that they pass over as
a whole.

## The architecture

* **`Inert`** — no let block starts in a piece of text, whatever calm text follows. Pieces compose.
  A `Sealed` piece is one that any text may follow.
* **`Balanced`** — the parentheses in a piece of text close each other, so that the scan for a
  closing one passes over it. Pieces compose.
* **`ClosingRead`** — how a text is cut behind a closing parenthesis, one case for each way in which
  the scan goes on.
-/

namespace Interpolants

open Text

/-! ## Pieces in which no let block starts -/

/-- Whether a text starts with the start of a let block. -/
def startsLet : List Char → Bool
  | '(' :: 'l' :: 'e' :: 't' :: c :: _ => isBlank c || c == '('
  | _ => false

/-- A text holds the start of a let block: `(let` before a blank or another parenthesis. -/
def Marked (cs : List Char) : Prop :=
  ∃ before c after, cs = before ++ '(' :: 'l' :: 'e' :: 't' :: c :: after ∧
    (isBlank c = true ∨ c = '(')

/-- A text that starts with a let block is cut in front of it. -/
theorem splitAtLet_of_startsLet {cs : List Char} (h : startsLet cs = true) :
    splitAtLet cs = some ([], cs) := by
  unfold startsLet at h
  split at h
  · rw [splitAtLet, if_pos h]
  · cases h

/-- Where no let block starts, the scan goes on to the next character. -/
theorem splitAtLet_cons {c : Char} {cs : List Char} (h : startsLet (c :: cs) = false) :
    splitAtLet (c :: cs) = (splitAtLet cs).map fun split => (c :: split.1, split.2) := by
  unfold startsLet at h
  split at h
  · next heq =>
    cases heq
    rw [splitAtLet, if_neg (by simpa using h)]
  · next hne =>
    rw [splitAtLet]
    intro c' cs' hc hcs
    exact hne c' cs' (by rw [hc, hcs])

/-- What is found from the next character on is found in the rest. -/
theorem exists_of_splitAtLet_cons {c : Char} {cs before here : List Char}
    (hstarts : startsLet (c :: cs) = false) (h : splitAtLet (c :: cs) = some (before, here)) :
    ∃ front, before = c :: front ∧ splitAtLet cs = some (front, here) := by
  rw [splitAtLet_cons hstarts] at h
  exact exists_of_map_before [c] h

/-- A text is cut where a let block starts. -/
theorem startsLet_of_splitAtLet {cs before here : List Char}
    (h : splitAtLet cs = some (before, here)) :
    startsLet here = true := by
  induction cs generalizing before with
  | nil => cases h
  | cons c cs ih =>
    cases hstarts : startsLet (c :: cs) with
    | true =>
      rw [splitAtLet_of_startsLet hstarts] at h
      cases h
      exact hstarts
    | false =>
      obtain ⟨front, -, hcut⟩ := exists_of_splitAtLet_cons hstarts h
      exact ih hcut

/-- Only a parenthesis starts a let block. -/
theorem startsLet_of_ne {c : Char} (h : c ≠ '(') (cs : List Char) :
    startsLet (c :: cs) = false := by
  unfold startsLet
  split
  · next heq =>
    cases heq
    exact absurd rfl h
  · rfl

/-- A number sign ends every start of a let block. -/
theorem startsLet_of_hash {piece rest : List Char} (h : startsLet (piece ++ '#' :: rest) = true)
    (cs : List Char) :
    startsLet (piece ++ cs) = true := by
  unfold startsLet at h
  split at h
  · next c tail heq =>
    rcases piece with _ | ⟨c₁, _ | ⟨c₂, _ | ⟨c₃, _ | ⟨c₄, _ | ⟨c₅, piece⟩⟩⟩⟩⟩ <;>
      simp only [List.cons_append, List.nil_append, List.cons.injEq, Char.reduceEq, and_false,
        false_and] at heq
    · obtain ⟨-, -, -, -, rfl, -⟩ := heq
      exact absurd h (by decide)
    · obtain ⟨rfl, rfl, rfl, rfl, rfl, -⟩ := heq
      exact h
  · cases h

theorem marked_of_startsLet {cs : List Char} (h : startsLet cs = true) : Marked cs := by
  unfold startsLet at h
  split at h
  · exact ⟨[], _, _, rfl, by simpa using h⟩
  · cases h

/-- A text holds the start of a let block if a part of it does. -/
theorem Marked.of_infix {cs ds : List Char} (h : Marked cs) (hin : cs <:+: ds) : Marked ds := by
  obtain ⟨before, c, after, rfl, hc⟩ := h
  obtain ⟨front, back, rfl⟩ := hin
  exact ⟨front ++ before, c, after ++ back, by simp, hc⟩

theorem Marked.cons {cs : List Char} (h : Marked cs) (c : Char) : Marked (c :: cs) :=
  h.of_infix (List.suffix_cons c cs).isInfix

/-- A text holds the start of a let block at its first character or in the rest. -/
theorem marked_cons_iff {c : Char} {cs : List Char} :
    Marked (c :: cs) ↔ startsLet (c :: cs) = true ∨ Marked cs := by
  constructor
  · rintro ⟨before, c', after, heq, hc'⟩
    cases before with
    | nil =>
      rw [List.nil_append] at heq
      rw [heq]
      exact Or.inl (by simpa [startsLet] using hc')
    | cons c₀ before =>
      rw [List.cons_append, List.cons.injEq] at heq
      exact Or.inr ⟨before, c', after, heq.2, hc'⟩
  · rintro (h | h)
    · exact marked_of_startsLet h
    · exact h.cons c

/-- What is not split at a let block holds the start of none. -/
theorem not_marked_of_splitAtLet {cs : List Char} (h : splitAtLet cs = none) : ¬ Marked cs := by
  induction cs with
  | nil =>
    rintro ⟨before, c, after, heq, -⟩
    simp at heq
  | cons c cs ih =>
    intro hmarked
    cases hstarts : startsLet (c :: cs) with
    | true =>
      rw [splitAtLet_of_startsLet hstarts] at h
      cases h
    | false =>
      rw [splitAtLet_cons hstarts, Option.map_eq_none_iff] at h
      refine ih h ((marked_cons_iff.1 hmarked).resolve_left ?_)
      rw [hstarts]
      decide

/-- Nothing is found in a text without the start of a let block. -/
theorem splitAtLet_of_not_marked {cs : List Char} (h : ¬ Marked cs) : splitAtLet cs = none := by
  induction cs with
  | nil => rfl
  | cons c cs ih =>
    have hstarts : startsLet (c :: cs) = false := by
      rw [Bool.eq_false_iff]
      exact fun hstarts => h (marked_of_startsLet hstarts)
    rw [splitAtLet_cons hstarts, ih fun hmarked => h (hmarked.cons c)]
    rfl

/-- Whether a text holds the start of a let block. -/
def decMarked : (cs : List Char) → Decidable (Marked cs)
  | [] => isFalse fun ⟨before, _, _, heq, _⟩ => by cases before <;> cases heq
  | c :: cs =>
    have := decMarked cs
    decidable_of_iff _ marked_cons_iff.symm

instance (cs : List Char) : Decidable (Marked cs) :=
  decMarked cs

/-- The text that follows a piece does not go on with the word `let`. -/
def Calm (cs : List Char) : Prop :=
  ∀ c ∈ cs.head?, c ≠ 'l' ∧ c ≠ 'e' ∧ c ≠ 't'

/-- A text is calm whose first character is none of those of `let`. -/
theorem calm_cons {c : Char} (h : c ≠ 'l' ∧ c ≠ 'e' ∧ c ≠ 't') (cs : List Char) :
    Calm (c :: cs) := by
  intro c' hc'
  cases hc'
  exact h

/-- Calm texts behind each other are calm. -/
theorem Calm.append {cs ds : List Char} (hcs : Calm cs) (hds : Calm ds) : Calm (cs ++ ds) := by
  cases cs with
  | nil => exact hds
  | cons c cs => exact calm_cons (hcs c rfl) _

/-- No let block starts in the piece, whatever calm text follows. -/
def Inert (piece : List Char) : Prop :=
  ∀ rest, Calm rest →
    splitAtLet (piece ++ rest) = (splitAtLet rest).map fun split => (piece ++ split.1, split.2)

namespace Inert

theorem nil : Inert [] := by
  intro rest _
  rw [List.nil_append]
  cases splitAtLet rest <;> rfl

/-- A let block that is found behind the piece is found without it. -/
theorem exists_of_splitAtLet {piece rest before here : List Char} (h : Inert piece)
    (hrest : Calm rest) (hsplit : splitAtLet (piece ++ rest) = some (before, here)) :
    ∃ front, before = piece ++ front ∧ splitAtLet rest = some (front, here) := by
  rw [h rest hrest] at hsplit
  exact exists_of_map_before piece hsplit

/-- Inert pieces compose if the second is calm. -/
theorem append {piece piece' : List Char} (h : Inert piece) (h' : Inert piece')
    (hcalm : Calm piece') : Inert (piece ++ piece') := by
  intro rest hrest
  -- the first piece is followed by the second, which is calm
  rw [List.append_assoc, h _ (hcalm.append hrest), h' rest hrest, map_before_map_before]

/-- A piece stays inert behind a character at which no let block starts. -/
theorem cons {c : Char} {piece : List Char} (h : Inert piece)
    (hc : ∀ rest, Calm rest → startsLet (c :: (piece ++ rest)) = false) : Inert (c :: piece) := by
  intro rest hrest
  rw [List.cons_append, splitAtLet_cons (hc rest hrest), h rest hrest, Option.map_map]
  rfl

theorem cons_of_ne {c : Char} {piece : List Char} (h : Inert piece) (hc : c ≠ '(') :
    Inert (c :: piece) :=
  h.cons fun _ _ => startsLet_of_ne hc _

/-- It stays inert behind a text without opening parentheses. -/
theorem prepend {before piece : List Char} (h : Inert piece) (hbefore : '(' ∉ before) :
    Inert (before ++ piece) := by
  induction before with
  | nil => exact h
  | cons c before ih =>
    rw [List.mem_cons, not_or] at hbefore
    exact (ih hbefore.2).cons_of_ne (Ne.symm hbefore.1)

/-- Such a text is inert itself. -/
theorem of_not_mem {piece : List Char} (h : '(' ∉ piece) : Inert piece := by
  have hpiece := nil.prepend h
  rwa [List.append_nil] at hpiece

/-- An opening parenthesis before a calm text starts no let block. -/
theorem singleton : Inert ['('] := by
  refine nil.cons fun rest hrest => ?_
  cases rest with
  | nil => rfl
  | cons c rest =>
    unfold startsLet
    split
    · next heq =>
      cases heq
      exact absurd rfl (hrest 'l' rfl).1
    · rfl

end Inert

/-- No let block starts in the piece, whatever text follows. -/
def Sealed (piece : List Char) : Prop :=
  ∀ rest, splitAtLet (piece ++ rest)
    = (splitAtLet rest).map fun split => (piece ++ split.1, split.2)

namespace Sealed

variable {piece piece' : List Char}

theorem inert (h : Sealed piece) : Inert piece :=
  fun rest _ => h rest

/-- The let block that is found behind the piece. -/
theorem splitAtLet_of_some (h : Sealed piece) {rest before here : List Char}
    (hsplit : splitAtLet rest = some (before, here)) :
    splitAtLet (piece ++ rest) = some (piece ++ before, here) := by
  rw [h, hsplit]
  rfl

/-- What is found behind a sealed piece is found in the rest, whatever that is. -/
theorem exists_of_splitAtLet (h : Sealed piece) {rest before here : List Char}
    (hsplit : splitAtLet (piece ++ rest) = some (before, here)) :
    ∃ front, before = piece ++ front ∧ splitAtLet rest = some (front, here) := by
  rw [h] at hsplit
  exact exists_of_map_before piece hsplit

/-- Nothing is found behind a sealed piece if there is nothing in the rest. -/
theorem splitAtLet_of_none (h : Sealed piece) {rest : List Char} (hsplit : splitAtLet rest = none) :
    splitAtLet (piece ++ rest) = none := by
  rw [h, hsplit]
  rfl

theorem nil : Sealed [] := by
  intro rest
  rw [List.nil_append]
  cases splitAtLet rest <;> rfl

/-- A piece stays sealed behind a character at which no let block starts. -/
theorem cons {c : Char} (h : Sealed piece) (hc : ∀ rest, startsLet (c :: (piece ++ rest)) = false) :
    Sealed (c :: piece) := by
  intro rest
  rw [List.cons_append, splitAtLet_cons (hc rest), h rest, Option.map_map]
  rfl

theorem cons_of_ne {c : Char} (h : Sealed piece) (hc : c ≠ '(') : Sealed (c :: piece) :=
  h.cons fun _ => startsLet_of_ne hc _

/-- Sealed pieces compose. -/
theorem append (h : Sealed piece) (h' : Sealed piece') : Sealed (piece ++ piece') := by
  intro rest
  rw [List.append_assoc, h, h', map_before_map_before]

/-- A text without opening parentheses is sealed. -/
theorem of_not_mem (h : '(' ∉ piece) : Sealed piece := by
  induction piece with
  | nil => exact nil
  | cons c piece ih =>
    rw [List.mem_cons, not_or] at h
    exact (ih h.2).cons_of_ne (Ne.symm h.1)

/-- In a quoted text without the start of a let block none starts up to the pipe behind it. -/
theorem quoted {cs : List Char} (h : ¬ Marked cs) : Sealed (cs ++ ['|']) := by
  induction cs with
  | nil => exact nil.cons_of_ne (by decide)
  | cons c cs ih =>
    rw [List.cons_append]
    refine (ih fun hm => h (hm.cons c)).cons fun rest => ?_
    unfold startsLet
    split
    · next d tail heq =>
      -- a marker that runs into the pipe would need the pipe to be one of its characters
      rcases cs with _ | ⟨c₁, _ | ⟨c₂, _ | ⟨c₃, _ | ⟨c₄, cs⟩⟩⟩⟩ <;>
        simp only [List.cons_append, List.nil_append, List.cons.injEq, Char.reduceEq, and_false,
          false_and] at heq
      · obtain ⟨-, -, -, -, rfl, -⟩ := heq
        decide
      · obtain ⟨rfl, rfl, rfl, rfl, rfl, -⟩ := heq
        rw [Bool.eq_false_iff]
        intro hd
        have hstarts : startsLet ('(' :: 'l' :: 'e' :: 't' :: c₄ :: cs) = true := hd
        exact h (marked_of_startsLet hstarts)
    · rfl

end Sealed

/-- Before the first let block of a text none starts, and a number sign keeps it so. -/
theorem sealed_of_splitAtLet {before here : List Char}
    (h : splitAtLet (before ++ here) = some (before, here)) :
    Sealed (before ++ ['#']) := by
  induction before with
  | nil => exact .of_not_mem (by decide)
  | cons c before ih =>
    have hstarts : startsLet (c :: (before ++ here)) = false := by
      rw [Bool.eq_false_iff]
      intro hstarts
      rw [List.cons_append, splitAtLet_of_startsLet hstarts] at h
      cases h
    obtain ⟨front, heq, hsplit⟩ := exists_of_splitAtLet_cons hstarts h
    cases heq
    intro rest
    -- a block that starts with the mark behind it would start with anything behind it
    have hhash : startsLet (c :: (before ++ '#' :: rest)) = false := by
      rw [Bool.eq_false_iff]
      intro hhash
      rw [← List.cons_append] at hhash hstarts
      rw [startsLet_of_hash hhash here] at hstarts
      cases hstarts
    have hbefore := ih hsplit rest
    rw [List.append_assoc, List.singleton_append] at hbefore ⊢
    rw [List.cons_append, splitAtLet_cons hhash, hbefore, Option.map_map]
    simp [Function.comp_def]

/-- Nothing is found in an inert piece alone. -/
theorem splitAtLet_eq_none {piece : List Char} (h : Inert piece) : splitAtLet piece = none := by
  have hnil := h [] (by simp [Calm])
  simpa [splitAtLet] using hnil

/-! ## Pieces in which parentheses match -/

/-- The parentheses in the piece close each other: behind an open parenthesis, the search for the
closing one passes over it. -/
def Balanced (piece : List Char) : Prop :=
  ∀ depth, 1 ≤ depth → ∀ rest, closing depth false (piece ++ rest) =
    (closing depth false rest).map fun split => (piece ++ split.1, split.2)

section

variable {depth : Nat}

/-- Only the parenthesis that closes the last open one leaves none open. -/
theorem one_le_depthAfter {quoted : Bool} {c : Char} (hdepth : 1 ≤ depth)
    (h : ¬ (c = ')' ∧ quoted = false ∧ depth ≤ 1)) : 1 ≤ depthAfter depth quoted c := by
  cases quoted with
  | true => exact hdepth
  | false =>
    simp only [depthAfter, Bool.false_eq_true, if_false]
    split
    · omega
    · split
      · next hclose =>
        have : ¬ depth ≤ 1 := fun hle => h ⟨hclose, rfl, hle⟩
        omega
      · exact hdepth

/-- A character changes the depth by as much at any depth. -/
theorem depthAfter_add (hdepth : 1 ≤ depth) (more : Nat) (quoted : Bool) (c : Char) :
    depthAfter (depth + more) quoted c = depthAfter depth quoted c + more := by
  cases quoted with
  | true => rfl
  | false =>
    simp only [depthAfter, Bool.false_eq_true, if_false]
    split
    · omega
    · split <;> omega

/-- An opening parenthesis makes the scan go one deeper. -/
theorem closing_open (cs : List Char) :
    closing depth false ('(' :: cs)
      = (closing (depth + 1) false cs).map fun split => ('(' :: split.1, split.2) := by
  rw [closing, if_neg (by simp), if_neg (by decide)]
  rfl

/-- A closing parenthesis ends the scan at the last depth. -/
theorem closing_last (h : depth ≤ 1) (cs : List Char) :
    closing depth false (')' :: cs) = some ([')'], cs) := by
  rw [closing, if_pos ⟨rfl, rfl, h⟩]

/-- At a greater depth it makes the scan go on one less deep. -/
theorem closing_close (h : 1 < depth) (cs : List Char) :
    closing depth false (')' :: cs)
      = (closing (depth - 1) false cs).map fun split => (')' :: split.1, split.2) := by
  rw [closing, if_neg (by omega), if_neg (by decide)]
  rfl

/-- How a text is cut behind the parenthesis that closes the last open one: character by
character. -/
inductive ClosingRead : Nat → Bool → List Char → List Char → List Char → Prop
  | last {depth : Nat} {rest : List Char} (hlast : depth ≤ 1) :
      ClosingRead depth false (')' :: rest) [')'] rest
  | more {depth : Nat} {quoted : Bool} {c : Char} {cs inside rest : List Char}
      (hgoes : ¬ (c = ')' ∧ quoted = false ∧ depth ≤ 1))
      (h : ClosingRead (depthAfter depth quoted c) (if c = '|' then !quoted else quoted) cs
        inside rest) :
      ClosingRead depth quoted (c :: cs) (c :: inside) rest

/-- **A scan that finds the closing parenthesis** goes on in one of the listed ways at each
character. -/
theorem closingRead_of_closing {quoted : Bool} {cs inside rest : List Char}
    (h : closing depth quoted cs = some (inside, rest)) :
    ClosingRead depth quoted cs inside rest := by
  induction cs generalizing depth quoted inside with
  | nil => cases h
  | cons c cs ih =>
    rw [closing] at h
    split at h
    · next hlast =>
      obtain ⟨rfl, rfl, hle⟩ := hlast
      cases h
      exact .last hle
    · next hgoes =>
      obtain ⟨front, rfl, hfront⟩ := exists_of_map_before [c] h
      exact .more hgoes (ih hfront)

/-- The parenthesis that closes behind an opening one is found one deeper. -/
theorem exists_of_closing_open {cs inside rest : List Char}
    (h : closing depth false ('(' :: cs) = some (inside, rest)) :
    ∃ more, inside = '(' :: more ∧ closing (depth + 1) false cs = some (more, rest) := by
  rw [closing_open] at h
  exact exists_of_map_before ['('] h

/-- The scan ends at a closing parenthesis, or goes on one less deep. -/
theorem exists_of_closing_close {cs inside rest : List Char}
    (h : closing depth false (')' :: cs) = some (inside, rest)) :
    (inside = [')'] ∧ rest = cs) ∨
      1 < depth ∧ ∃ more, inside = ')' :: more ∧
      closing (depth - 1) false cs = some (more, rest) := by
  by_cases hlast : depth ≤ 1
  · rw [closing_last hlast] at h
    cases h
    exact Or.inl ⟨rfl, rfl⟩
  · have hdepth : 1 < depth := by omega
    rw [closing_close hdepth] at h
    exact Or.inr ⟨hdepth, exists_of_map_before [')'] h⟩

/-- What stands behind the first parenthesis of an enclosed text. -/
theorem exists_of_enclosed {cs found rest : List Char}
    (h : enclosed ('(' :: cs) = some (found, rest)) :
    ∃ inside, found = '(' :: inside ∧ closing 1 false cs = some (inside, rest) :=
  exists_of_closing_open h

end

/-- Inside quotes the scan passes over everything but a pipe. -/
theorem closing_quoted {cs : List Char} (h : '|' ∉ cs) (depth : Nat) (rest : List Char) :
    closing depth true (cs ++ rest) =
      (closing depth true rest).map fun split => (cs ++ split.1, split.2) := by
  induction cs with
  | nil =>
    rw [List.nil_append]
    cases closing depth true rest <;> rfl
  | cons c cs ih =>
    rw [List.mem_cons, not_or] at h
    rw [List.cons_append, closing, if_neg (by simp), if_neg (Ne.symm h.1), depthAfter, if_pos rfl,
      ih h.2, Option.map_map]
    rfl

namespace Balanced

/-- What closes the parentheses that are open in front of the piece stands behind it. -/
theorem exists_of_closing {piece rest inside after : List Char} {depth : Nat} (h : Balanced piece)
    (hdepth : 1 ≤ depth) (hclosing : closing depth false (piece ++ rest) = some (inside, after)) :
    ∃ more, inside = piece ++ more ∧ closing depth false rest = some (more, after) := by
  rw [h depth hdepth] at hclosing
  exact exists_of_map_before piece hclosing

theorem nil : Balanced [] := by
  intro depth _ rest
  rw [List.nil_append]
  cases closing depth false rest <;> rfl

/-- Balanced pieces compose. -/
theorem append {piece piece' : List Char} (h : Balanced piece) (h' : Balanced piece') :
    Balanced (piece ++ piece') := by
  intro depth hdepth rest
  rw [List.append_assoc, h depth hdepth, h' depth hdepth, map_before_map_before]

/-- A text without parentheses and pipes is balanced. -/
theorem of_plain {piece : List Char} (h : ∀ c ∈ piece, c ≠ '(' ∧ c ≠ ')' ∧ c ≠ '|') :
    Balanced piece := by
  induction piece with
  | nil => exact nil
  | cons c piece ih =>
    intro depth hdepth rest
    obtain ⟨hopen, hclose, hpipe⟩ := h c (by simp)
    have hdepth' : depthAfter depth false c = depth := by simp [depthAfter, hopen, hclose]
    rw [List.cons_append, closing, if_neg (by simp [hclose]), if_neg hpipe, hdepth',
      ih (fun c' hc' => h c' (by simp [hc'])) depth hdepth, Option.map_map]
    rfl

/-- **A quoted text is balanced**, whatever parentheses it has. -/
theorem quoted {cs : List Char} (h : '|' ∉ cs) : Balanced ('|' :: cs ++ ['|']) := by
  intro depth hdepth rest
  have hopen : closing depth false ('|' :: (cs ++ ('|' :: rest)))
      = (closing depth true (cs ++ ('|' :: rest))).map
        fun split => (['|'] ++ split.1, split.2) := by
    rw [closing, if_neg (by simp), if_pos rfl]
    rfl
  have hclose : closing depth true ('|' :: rest)
      = (closing depth false rest).map fun split => (['|'] ++ split.1, split.2) := by
    rw [closing, if_neg (by simp), if_pos rfl]
    rfl
  -- between the pipes the scan counts no parentheses
  rw [show '|' :: cs ++ ['|'] ++ rest = '|' :: (cs ++ ('|' :: rest)) from by simp, hopen,
    closing_quoted h, hclose, map_before_map_before, map_before_map_before]
  rfl

/-- A balanced piece in parentheses is balanced. -/
theorem parens {piece : List Char} (h : Balanced piece) : Balanced ('(' :: piece ++ [')']) := by
  intro depth hdepth rest
  have hopen : closing depth false ('(' :: (piece ++ (')' :: rest)))
      = (closing (depth + 1) false (piece ++ (')' :: rest))).map
          fun split => (['('] ++ split.1, split.2) := closing_open _
  have hclose : closing (depth + 1) false (')' :: rest)
      = (closing depth false rest).map fun split => ([')'] ++ split.1, split.2) :=
    closing_close (by omega) _
  rw [show '(' :: piece ++ [')'] ++ rest = '(' :: (piece ++ (')' :: rest)) from by simp, hopen,
    h (depth + 1) (by omega), hclose, map_before_map_before, map_before_map_before]
  rfl

end Balanced

theorem balanced_blank {c : Char} (hc : isBlank c = true) : Balanced [c] := by
  refine Balanced.of_plain fun c' hc' => ?_
  rw [List.mem_singleton.1 hc']
  refine ⟨?_, ?_, ?_⟩ <;> rintro rfl <;> exact absurd hc (by decide)

/-- A text in parentheses is cut off behind the closing one. -/
theorem enclosed_parens {piece : List Char} (h : Balanced piece) (rest : List Char) :
    enclosed ('(' :: piece ++ [')'] ++ rest) = some ('(' :: piece ++ [')'], rest) := by
  rw [show '(' :: piece ++ [')'] ++ rest = '(' :: (piece ++ (')' :: rest)) from by simp, enclosed,
    closing_open, h 1 (by omega), closing_last (by omega)]
  rfl

end Interpolants
