import Interpolants.Proofs.Decoding.Rounds
import Interpolants.Proofs.Offsets.Slice
import Mathlib.Data.List.DropRight

/-!
# Interpolants — where cursors stand

A cursor keeps the text behind it. If that is a part of the whole text, the cursor has an offset,
the number of bytes before it; every step that takes something moves the cursor on, to a larger
offset.
-/

namespace Interpolants

open Text

namespace Cursor

/-- The number of bytes before a cursor. -/
def offset (c : Cursor) : Nat :=
  Offsets.byteSize c.text - Offsets.byteSize c.rest

/-- What is still to be read is a part of the text. -/
def Inside (c : Cursor) : Prop :=
  c.rest <:+ c.text

/-- A cursor has been moved on, by a character at least. -/
structure Advances (c c' : Cursor) : Prop where
  text : c'.text = c.text
  rest : c'.rest <:+ c.rest
  shorter : c'.rest.length < c.rest.length

variable {c c₁ c' : Cursor}

theorem inside_ofText (text : List Char) : (ofText text).Inside :=
  List.suffix_refl text

theorem offset_ofText (text : List Char) : (ofText text).offset = 0 :=
  Nat.sub_self _

/-- The offset of a cursor is the number of bytes that have been passed. -/
theorem offset_of_append {front : List Char} (h : front ++ c.rest = c.text) :
    c.offset = Offsets.byteSize front := by
  rw [offset, ← h, Offsets.byteSize_append, Nat.add_sub_cancel]

/-- The two pieces that a cursor cuts its text into. -/
theorem Inside.exists_front (h : c.Inside) :
    ∃ front, c.text = front ++ c.rest ∧ c.offset = Offsets.byteSize front := by
  obtain ⟨front, hfront⟩ := h
  exact ⟨front, hfront.symm, offset_of_append hfront⟩

/-- Behind a piece of the text a cursor stands farther on by the size of the piece. -/
theorem Inside.offset_of_append {piece : List Char} (h : c.Inside) (htext : c'.text = c.text)
    (hpiece : piece ++ c'.rest = c.rest) : c'.offset = c.offset + Offsets.byteSize piece := by
  obtain ⟨front, hfront, hoffset⟩ := h.exists_front
  have hsize := congrArg Offsets.byteSize hfront
  have hrest := congrArg Offsets.byteSize hpiece
  rw [Offsets.byteSize_append] at hsize hrest
  rw [hoffset, offset, htext]
  omega

/-- Skipping blanks does not lead out of the text. -/
theorem Inside.skipBlanks (h : c.Inside) : c.skipBlanks.Inside :=
  (List.dropWhile_suffix _).trans h

/-- Moving on does not lead out of the text. -/
theorem Advances.inside (h : c.Advances c') (hc : c.Inside) : c'.Inside := by
  rw [Inside, h.text]
  exact h.rest.trans hc

theorem Advances.trans (h : c.Advances c₁) (h' : c₁.Advances c') : c.Advances c' :=
  ⟨h'.text.trans h.text, h'.rest.trans h.rest, h'.shorter.trans h.shorter⟩

/-- What is left behind a cursor that is moved on has fewer bytes. -/
theorem Advances.byteSize_lt (h : c.Advances c') :
    Offsets.byteSize c'.rest < Offsets.byteSize c.rest := by
  obtain ⟨piece, hpiece⟩ := h.rest
  have hne : piece ≠ [] := by
    rintro rfl
    have := h.shorter
    rw [← hpiece, List.nil_append] at this
    omega
  have hpos := Offsets.byteSize_pos hne
  rw [← hpiece, Offsets.byteSize_append]
  omega

/-- A cursor that is moved on stands at a larger offset. -/
theorem Advances.offset_lt (h : c.Advances c') (hc : c.Inside) :
    c.offset < c'.offset ∧ c'.offset ≤ Offsets.byteSize c.text := by
  obtain ⟨front, htext, -⟩ := hc.exists_front
  have hsize := congrArg Offsets.byteSize htext
  have hless := h.byteSize_lt
  rw [Offsets.byteSize_append] at hsize
  rw [offset, offset, h.text]
  omega

/-- A cursor that moves on behind the blanks moves on. -/
theorem Advances.of_skipBlanks (h : c.skipBlanks.Advances c') : c.Advances c' := by
  have hblanks : trimStart c.rest <:+ c.rest := List.dropWhile_suffix _
  exact ⟨h.text, h.rest.trans hblanks, Nat.lt_of_lt_of_le h.shorter hblanks.length_le⟩

theorem Advances.skipBlanks (h : c.Advances c') : c.Advances c'.skipBlanks := by
  have hblanks : trimStart c'.rest <:+ c'.rest := List.dropWhile_suffix _
  exact ⟨h.text, hblanks.trans h.rest, Nat.lt_of_le_of_lt hblanks.length_le h.shorter⟩

/-- What is read behind blanks is read. -/
theorem advances_of_append {piece : List Char} (htext : c'.text = c.text) (hne : piece ≠ [])
    (h : piece ++ c'.rest = trimStart c.rest) : c.Advances c' := by
  have hblanks : trimStart c.rest <:+ c.rest := List.dropWhile_suffix _
  have hpiece : c'.rest <:+ trimStart c.rest := ⟨piece, h⟩
  refine ⟨htext, hpiece.trans hblanks, ?_⟩
  have hlength := congrArg List.length h
  rw [List.length_append] at hlength
  have := hblanks.length_le
  have := List.length_pos_iff.2 hne
  omega

/-- A cursor moves on by a character behind the blanks. -/
theorem advances_of_cons {ch : Char} {rest : List Char} (h : c.skipBlanks.rest = ch :: rest) :
    c.Advances (c.goTo rest) :=
  advances_of_append rfl (List.cons_ne_nil ch []) h.symm

/-- A character that is taken moves the cursor on. -/
theorem advances_of_eat? {wanted : Char} (h : c.eat? wanted = some c') : c.Advances c' := by
  refine advances_of_append ?_ (List.cons_ne_nil wanted []) (rest_of_eat? h).symm
  unfold eat? at h
  split at h
  · split at h
    · cases h
      rfl
    · cases h
  · cases h

/-- A character that was expected moves the cursor on. -/
theorem advances_of_expect {wanted : Char} (h : c.expect wanted = .ok c') : c.Advances c' :=
  advances_of_eat? (eat?_of_expect h)

/-- A token moves the cursor on. -/
theorem advances_of_token {token : List Char} (h : c.token = .ok (token, c')) : c.Advances c' := by
  have htext : c'.text = c.text := by
    cases tokenRead_of_token h <;> rfl
  exact advances_of_append htext (ne_nil_of_token h) (append_of_token h)

/-- The text of a term moves the cursor on. -/
theorem advances_of_span {term : List Char} (h : c.span = .ok (term, c')) : c.Advances c' := by
  rcases span_cases h with ⟨more, after, -, hfound, rfl⟩ | ⟨-, htoken⟩
  · refine advances_of_append rfl ?_ (append_of_span h)
    rintro rfl
    exact absurd (getLast?_of_closing hfound) (by simp)
  · exact advances_of_token htoken

/-! ## Steps behind blanks -/

theorem skipBlanks_skipBlanks (c : Cursor) : c.skipBlanks.skipBlanks = c.skipBlanks := by
  rw [skipBlanks, skipBlanks, goTo_rest, trimStart, trimStart, List.dropWhile_idempotent]
  rfl

/-- Blanks in front of a token make no difference. -/
theorem token_skipBlanks (c : Cursor) : c.skipBlanks.token = c.token := by
  unfold Cursor.token
  rw [skipBlanks_skipBlanks]
  rfl

/-- Blanks in front of an expected character make no difference. -/
theorem expect_skipBlanks (c : Cursor) (wanted : Char) :
    c.skipBlanks.expect wanted = c.expect wanted := by
  have heat : c.skipBlanks.eat? wanted = c.eat? wanted := by
    unfold eat?
    rw [skipBlanks_skipBlanks]
    rfl
  rw [expect, expect, heat, skipBlanks_skipBlanks]

end Cursor

end Interpolants
