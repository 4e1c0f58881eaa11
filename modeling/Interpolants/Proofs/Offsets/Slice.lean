import Interpolants.Decoding.Error
import Interpolants.Text.Utf8

/-!
# Interpolants — slices by byte offsets

A place in a text is a number of bytes, and a text may only be sliced where a character starts or
the text ends. Here a slice anywhere else is a `Fault`, and so is everything else that no decoding
error stands for: a number that does not fit, a loop that does not come closer to its end, an entry
that takes the place of another one.
-/

namespace Interpolants

open Text

/-- What no decoding error stands for. -/
inductive Fault where
  /-- An offset outside of a text or inside a character. -/
  | slice
  /-- A number that its type does not hold. -/
  | range
  /-- A call or a round of a loop that is no closer to the end than the one before. -/
  | standstill
  /-- An entry under a key that the table has already. -/
  | overwritten
deriving DecidableEq, Repr

/-- Why a run ends without a result. -/
inductive Abort where
  | refused (e : DecodeError)
  | fault (what : Fault)
deriving DecidableEq

/-- A run in which everything is checked. -/
abbrev Guarded (α : Type) : Type :=
  Except Abort α

/-- A result of decoding as the result of a run in which no check fails. -/
def refusing {α : Type} : Except DecodeError α → Guarded α
  | .ok a => .ok a
  | .error e => .error (.refused e)

namespace Offsets

/-! ## Sizes -/

/-- The number of bytes of a text. -/
def byteSize (cs : List Char) : Nat :=
  (utf8 cs).length

@[simp] theorem byteSize_nil : byteSize [] = 0 := rfl

@[simp] theorem byteSize_cons (c : Char) (cs : List Char) :
    byteSize (c :: cs) = c.utf8Size + byteSize cs := by
  rw [byteSize, utf8, List.flatMap_cons, List.length_append, String.length_utf8EncodeChar]
  rfl

@[simp] theorem byteSize_append (cs ds : List Char) :
    byteSize (cs ++ ds) = byteSize cs + byteSize ds := by
  rw [byteSize, utf8, List.flatMap_append, List.length_append]
  rfl

/-- The size of a text is that of its characters in UTF-8. -/
theorem byteSize_toList (text : String) : byteSize text.toList = text.utf8ByteSize := by
  have h := congrArg ByteArray.size (toByteArray_utf8 text.toList)
  rw [String.ofList_toList] at h
  rw [byteSize]
  simpa using h

/-- A text that is not empty has a byte. -/
theorem byteSize_pos {cs : List Char} (h : cs ≠ []) : 0 < byteSize cs := by
  obtain ⟨c, cs, rfl⟩ := List.exists_cons_of_ne_nil h
  have := c.utf8Size_pos
  rw [byteSize_cons]
  omega

/-- A part has no more bytes than the whole. -/
theorem byteSize_le_of_part {cs ds : List Char} (h : cs <:+: ds) : byteSize cs ≤ byteSize ds := by
  obtain ⟨front, back, rfl⟩ := h
  rw [byteSize_append, byteSize_append]
  omega

/-- Every character takes a byte. -/
theorem count_le_byteSize (c : Char) (cs : List Char) : cs.count c ≤ byteSize cs := by
  induction cs with
  | nil => simp
  | cons c' cs ih =>
    have := c'.utf8Size_pos
    rw [List.count_cons, byteSize_cons]
    split <;> omega

/-! ## Slices -/

/-- Cuts a text behind a number of bytes, if a character ends there. -/
def cutAt? : Nat → List Char → Option (List Char × List Char)
  | 0, cs => some ([], cs)
  | _ + 1, [] => none
  | n + 1, c :: cs =>
    if c.utf8Size ≤ n + 1 then
      (cutAt? (n + 1 - c.utf8Size) cs).map fun cut => (c :: cut.1, cut.2)
    else none

/-- What follows an offset. -/
def sliceFrom (text : List Char) (start : Nat) : Guarded (List Char) :=
  match cutAt? start text with
  | some (_, rest) => .ok rest
  | none => .error (.fault .slice)

/-- What comes before an offset. -/
def sliceTo (text : List Char) (stop : Nat) : Guarded (List Char) :=
  match cutAt? stop text with
  | some (front, _) => .ok front
  | none => .error (.fault .slice)

/-- What stands between two offsets. -/
def slice (text : List Char) (start stop : Nat) : Guarded (List Char) := do
  sliceFrom (← sliceTo text stop) start

/-- The difference of two sizes. -/
def less (n m : Nat) : Guarded Nat :=
  if m ≤ n then .ok (n - m) else .error (.fault .range)

/-- A number that is kept in a signed 32-bit word. -/
def word32 (n : Int) : Guarded Int :=
  if Int32.minValue.toInt ≤ n ∧ n ≤ Int32.maxValue.toInt then .ok n else .error (.fault .range)

/-- The offset of the first character of a kind. -/
def offsetOf? (p : Char → Bool) : List Char → Option Nat
  | [] => none
  | c :: cs => if p c then some 0 else (offsetOf? p cs).map (c.utf8Size + ·)

/-- A text can be cut behind each of its pieces. -/
theorem cutAt?_append (front rest : List Char) :
    cutAt? (byteSize front) (front ++ rest) = some (front, rest) := by
  induction front with
  | nil => cases rest <;> rfl
  | cons c front ih =>
    have hpos := c.utf8Size_pos
    obtain ⟨n, hn⟩ : ∃ n, byteSize (c :: front) = n + 1 :=
      ⟨_, (Nat.succ_pred (by simp; omega)).symm⟩
    have hsize : n + 1 - c.utf8Size = byteSize front := by
      rw [← hn, byteSize_cons]
      omega
    have hfits : c.utf8Size ≤ n + 1 := by
      rw [← hn, byteSize_cons]
      omega
    rw [hn, List.cons_append, cutAt?, if_pos hfits, hsize, ih]
    rfl

/-- **A text is cut exactly between two of its characters**, or at its ends. -/
theorem cutAt?_eq_some_iff {n : Nat} {cs front rest : List Char} :
    cutAt? n cs = some (front, rest) ↔ cs = front ++ rest ∧ n = byteSize front := by
  constructor
  · intro h
    induction cs generalizing n front with
    | nil =>
      cases n with
      | zero =>
        cases h
        exact ⟨rfl, rfl⟩
      | succ n => cases h
    | cons c cs ih =>
      cases n with
      | zero =>
        cases h
        exact ⟨rfl, rfl⟩
      | succ n =>
        rw [cutAt?] at h
        split at h
        · obtain ⟨⟨more, _⟩, hcut, heq⟩ := Option.map_eq_some_iff.1 h
          cases heq
          obtain ⟨rfl, hn⟩ := ih hcut
          -- the character fits in front of the offset, and the rest is cut behind it
          have hmore : n + 1 - c.utf8Size = byteSize more := hn
          refine ⟨rfl, ?_⟩
          show n + 1 = byteSize (c :: more)
          rw [byteSize_cons]
          omega
        · cases h
  · rintro ⟨rfl, rfl⟩
    exact cutAt?_append front rest

theorem sliceFrom_append (front rest : List Char) :
    sliceFrom (front ++ rest) (byteSize front) = .ok rest := by
  rw [sliceFrom, cutAt?_append]

theorem sliceTo_append (front rest : List Char) :
    sliceTo (front ++ rest) (byteSize front) = .ok front := by
  rw [sliceTo, cutAt?_append]

/-- **A slice between two pieces of a text.** -/
theorem slice_append (front piece rest : List Char) :
    slice (front ++ piece ++ rest) (byteSize front) (byteSize (front ++ piece)) = .ok piece := by
  rw [slice, sliceTo_append]
  exact sliceFrom_append front piece

/-- A difference is there if it is not negative. -/
theorem less_of_le {n m : Nat} (h : m ≤ n) : less n m = .ok (n - m) :=
  if_pos h

/-- A signed 32-bit word can count the parentheses that a text opens. -/
def ParensFit (cs : List Char) : Prop :=
  ((cs.count '(' : Nat) : Int) ≤ Int32.maxValue.toInt

/-- A text that opens fewer parentheses can be counted too. -/
theorem ParensFit.of_count_le {cs ds : List Char} (h : ParensFit cs)
    (hle : ds.count '(' ≤ cs.count '(') :
    ParensFit ds := by
  unfold ParensFit at h ⊢
  omega

theorem ParensFit.sublist {cs ds : List Char} (h : ParensFit cs) (hsub : ds.Sublist cs) :
    ParensFit ds :=
  h.of_count_le (hsub.count_le '(')

/-- The parentheses of a text below two gigabytes can be counted. -/
theorem parensFit_of_size {text : String} (h : (text.utf8ByteSize : Int) ≤ Int32.maxValue.toInt) :
    ParensFit text.toList := by
  have hcount := count_le_byteSize '(' text.toList
  rw [byteSize_toList] at hcount
  unfold ParensFit
  omega

theorem word32_of_le {n : Nat} (h : (n : Int) ≤ Int32.maxValue.toInt) :
    word32 n = .ok (n : Int) := by
  have hmin : Int32.minValue.toInt ≤ (n : Int) := by
    have : Int32.minValue.toInt ≤ 0 := by decide
    omega
  exact if_pos ⟨hmin, h⟩

/-- Counting one up stays in a 32-bit word if the count fits. -/
theorem word32_succ {depth : Nat} (h : ((depth + 1 : Nat) : Int) ≤ Int32.maxValue.toInt) :
    word32 ((depth : Int) + 1) = .ok ((depth + 1 : Nat) : Int) :=
  word32_of_le h

/-- Counting one down stays in a 32-bit word while something is open. -/
theorem word32_pred {depth : Nat} (hdepth : 1 ≤ depth)
    (h : (depth : Int) ≤ Int32.maxValue.toInt) :
    word32 ((depth : Int) - 1) = .ok ((depth - 1 : Nat) : Int) := by
  have hcast : (depth : Int) - 1 = ((depth - 1 : Nat) : Int) := by omega
  rw [hcast]
  exact word32_of_le (by omega)

/-- The first character of a kind stands behind the run of others. -/
theorem offsetOf?_eq (p : Char → Bool) (cs : List Char) :
    offsetOf? p cs = if cs.any p then some (byteSize (cs.takeWhile fun c => !p c)) else none := by
  induction cs with
  | nil => rfl
  | cons c cs ih =>
    rw [offsetOf?, ih, List.any_cons, List.takeWhile_cons]
    cases hc : p c with
    | true => rfl
    | false =>
      cases cs.any p with
      | true => simp
      | false => rfl

end Offsets

end Interpolants
