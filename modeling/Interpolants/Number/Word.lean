/-!
# Interpolants — machine words

Integer constants are signed 64-bit words and numerals of solver terms are unsigned ones. Arithmetic
is exact first and narrowed after, so a result that does not fit is seen and never wraps.
-/

namespace Interpolants.Word

/-- The signed word equal to `n`, if `n` fits. -/
def signed? (n : Int) : Option Int64 :=
  if h : Int64.minValue.toInt ≤ n ∧ n ≤ Int64.maxValue.toInt then some (Int64.ofIntLE n h.1 h.2)
  else none

/-- The unsigned word equal to `n`, if `n` fits. -/
def unsigned? (n : Nat) : Option UInt64 :=
  if h : n < UInt64.size then some (UInt64.ofNatLT n h) else none

/-- The distance of a word from zero, which may be one more than the largest signed word. -/
def magnitude (i : Int64) : UInt64 :=
  UInt64.ofNat i.toInt.natAbs

theorem signed?_eq_some_iff {n : Int} {i : Int64} : signed? n = some i ↔ i.toInt = n := by
  unfold signed?
  split
  · rename_i h
    rw [Option.some.injEq, ← Int64.toInt_inj, Int64.toInt_ofIntLE]
    exact eq_comm
  · rename_i h
    constructor
    · intro h'; cases h'
    · rintro rfl
      exact absurd ⟨i.minValue_le_toInt, i.toInt_le⟩ h

theorem signed?_toInt (i : Int64) : signed? i.toInt = some i :=
  signed?_eq_some_iff.2 rfl

theorem unsigned?_eq_some_iff {n : Nat} {w : UInt64} : unsigned? n = some w ↔ w.toNat = n := by
  unfold unsigned?
  split
  · rename_i h
    rw [Option.some.injEq, ← UInt64.toNat_inj, UInt64.toNat_ofNatLT]
    exact eq_comm
  · rename_i h
    constructor
    · intro h'; cases h'
    · rintro rfl
      exact absurd w.toNat_lt h

theorem toNat_magnitude (i : Int64) : (magnitude i).toNat = i.toInt.natAbs := by
  have hlow := i.le_toInt
  have hhigh := i.toInt_lt
  exact UInt64.toNat_ofNat_of_lt' (by have : UInt64.size = 2 ^ 64 := rfl; omega)

end Interpolants.Word
