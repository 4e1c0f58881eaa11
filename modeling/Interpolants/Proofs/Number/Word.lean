import Interpolants.Number.Word

/-!
# Interpolants — signs and magnitudes

A signed word is written as its magnitude, with a minus sign if it is negative. Every magnitude fits
in a signed word again except that of the least one.
-/

namespace Interpolants.Word

variable {i : Int64}

/-- All words but the least are greater than it. -/
theorem minValue_lt (h : i ≠ Int64.minValue) : Int64.minValue < i := by
  have hlow := i.minValue_le_toInt
  rw [ne_eq, ← Int64.toInt_inj] at h
  rw [Int64.lt_iff_toInt_lt]
  omega

theorem neg_iff : i < 0 ↔ i.toInt < 0 := by
  rw [Int64.lt_iff_toInt_lt, Int64.toInt_zero]

/-- The opposite of a word is exact, except for the least word. -/
theorem toInt_neg (h : Int64.minValue < i) : (-i).toInt = -i.toInt := by
  have hlow := Int64.lt_iff_toInt_lt.1 h
  have hhigh := i.toInt_lt
  rw [Int64.toInt_minValue] at hlow
  rw [Int64.toInt_neg, Int.bmod_eq_of_le] <;> omega

/-- An integer in the range of words is that of a word. -/
theorem exists_signed? {n : Int} (hlow : Int64.minValue.toInt ≤ n)
    (hhigh : n ≤ Int64.maxValue.toInt) : ∃ i, signed? n = some i :=
  ⟨_, dif_pos ⟨hlow, hhigh⟩⟩

/-- A word that is not negative is its magnitude. -/
theorem signed?_magnitude (h : ¬ i < 0) : signed? (magnitude i).toNat = some i := by
  rw [neg_iff] at h
  rw [signed?_eq_some_iff, toNat_magnitude]
  omega

/-- The magnitude of a negative word is its opposite, except for the least word. -/
theorem signed?_magnitude_of_neg (hlow : Int64.minValue < i) (h : i < 0) :
    signed? (magnitude i).toNat = some (-i) := by
  rw [neg_iff] at h
  rw [signed?_eq_some_iff, toNat_magnitude, toInt_neg hlow]
  omega

/-- No other negative word has the magnitude of the least one. -/
theorem magnitude_eq_magnitude_minValue_iff (h : i < 0) :
    magnitude i = magnitude Int64.minValue ↔ i = Int64.minValue := by
  rw [neg_iff] at h
  rw [← UInt64.toNat_inj, toNat_magnitude, toNat_magnitude, ← Int64.toInt_inj,
    Int64.toInt_minValue]
  omega

end Interpolants.Word
