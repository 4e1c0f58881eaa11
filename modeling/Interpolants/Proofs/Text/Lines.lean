import Interpolants.Text.Lines
import Interpolants.Text.Utf8
import Mathlib.Data.List.Basic

/-!
# Interpolants — lines as bytes

A text is cut into lines before or after it is made into bytes, with the same lines: the byte of a
line end is no part of another character.
-/

namespace Interpolants.Text

section

variable {α : Type} [DecidableEq α] {separator : α}

/-- Text without a separator goes to the first piece. -/
theorem pieces_append {text : List α} (h : separator ∉ text) (rest : List α) :
    pieces separator (text ++ rest) = (pieces separator rest).modifyHead (text ++ ·) := by
  induction text with
  | nil =>
    rw [List.nil_append]
    cases pieces separator rest <;> rfl
  | cons a text ih =>
    obtain ⟨ha, htext⟩ := not_or.1 (List.mem_cons.not.1 h)
    rw [List.cons_append, pieces, if_neg (Ne.symm ha), ih htext]
    cases hp : pieces separator rest with
    | nil => exact absurd hp (pieces_ne_nil separator rest)
    | cons piece more => rfl

end

/-! ## Bytes -/

/-- The byte of a line end is no part of another character. -/
theorem eq_of_mem_utf8EncodeChar {c : Char} (h : 10 ∈ String.utf8EncodeChar c) : c = '\n' := by
  -- only a character below 128 has a byte below 128
  have hbyte : ∀ n : Nat, 10 = UInt8.ofNat n → n % 256 = 10 := by
    intro n hn
    have := congrArg UInt8.toNat hn
    simpa using this.symm
  have hcode : c.val.toNat = 10 := by
    unfold String.utf8EncodeChar at h
    simp only at h
    split at h
    · have := hbyte _ (List.mem_singleton.1 h)
      omega
    · split at h
      · simp only [List.mem_cons, List.not_mem_nil, or_false] at h
        rcases h with h | h <;> have := hbyte _ h <;> omega
      · split at h
        · simp only [List.mem_cons, List.not_mem_nil, or_false] at h
          rcases h with h | h | h <;> have := hbyte _ h <;> omega
        · simp only [List.mem_cons, List.not_mem_nil, or_false] at h
          rcases h with h | h | h | h <;> have := hbyte _ h <;> omega
  exact Char.ext (UInt32.toNat_inj.1 hcode)

/-- Bytes that are read as a text are made of it. -/
theorem ofUtf8?_eq_some_iff {bytes : List UInt8} {cs : List Char} :
    ofUtf8? bytes = some cs ↔ bytes = utf8 cs := by
  refine ⟨fun h => ?_, fun h => h ▸ ofUtf8?_utf8 cs⟩
  rw [ofUtf8?, Option.map_eq_some_iff] at h
  obtain ⟨s, hs, rfl⟩ := h
  rw [String.fromUTF8?] at hs
  split at hs
  · cases hs
    rw [← List.toByteArray_inj, toByteArray_utf8, String.ofList_toList]
    rfl
  · cases hs

theorem utf8_eq_nil_iff {cs : List Char} : utf8 cs = [] ↔ cs = [] := by
  cases cs with
  | nil => exact iff_of_true rfl rfl
  | cons c cs =>
    refine iff_of_false (fun h => ?_) (List.cons_ne_nil c cs)
    exact String.utf8EncodeChar_ne_nil (List.append_eq_nil_iff.1 h).1

/-- Cutting bytes at line ends is cutting the text. -/
theorem pieces_utf8 (cs : List Char) : pieces 10 (utf8 cs) = (pieces '\n' cs).map utf8 := by
  induction cs with
  | nil => rfl
  | cons c cs ih =>
    have hcons : utf8 (c :: cs) = String.utf8EncodeChar c ++ utf8 cs := List.flatMap_cons
    by_cases hc : c = '\n'
    · subst hc
      have hend : utf8 ('\n' :: cs) = 10 :: utf8 cs := hcons
      rw [hend, pieces, if_pos rfl, pieces, if_pos rfl, List.map_cons, ih]
      rfl
    · rw [hcons, pieces_append fun h => hc (eq_of_mem_utf8EncodeChar h), pieces, if_neg hc, ih]
      cases hp : pieces '\n' cs with
      | nil => exact absurd hp (pieces_ne_nil '\n' cs)
      | cons piece more => rfl

/-- Lines can be cut before or after they are put into UTF-8. -/
theorem terminated_utf8 (cs : List Char) :
    terminated 10 (utf8 cs) = (terminated '\n' cs).map utf8 := by
  have hlast : (pieces 10 (utf8 cs)).getLast? = some [] ↔ (pieces '\n' cs).getLast? = some [] := by
    rw [pieces_utf8, List.getLast?_map, Option.map_eq_some_iff]
    simp [utf8_eq_nil_iff]
  unfold terminated
  by_cases h : (pieces '\n' cs).getLast? = some []
  · rw [if_pos (hlast.2 h), if_pos h, pieces_utf8, List.map_dropLast]
  · rw [if_neg (hlast.not.2 h), if_neg h, pieces_utf8]

end Interpolants.Text
