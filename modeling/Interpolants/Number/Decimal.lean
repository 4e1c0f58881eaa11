/-!
# Interpolants — decimal numerals

Numbers are written with the digits `0` to `9` and without leading zeros; negative ones carry a
minus sign. Reading allows leading zeros.
-/

namespace Interpolants.Decimal

/-- The digits of a number, the most significant first. -/
def digits (n : Nat) : List Char :=
  Nat.toDigits 10 n

/-- The written form of an integer. -/
def chars : Int → List Char
  | .ofNat n => digits n
  | .negSucc n => '-' :: digits (n + 1)

/-- The written form of an integer, as text. -/
def render (n : Int) : String :=
  String.ofList (chars n)

/-- The number that some digits stand for. -/
def value (ds : List Char) : Nat :=
  Nat.ofDigitChars 10 ds 0

/-- Whether every character is a digit. -/
def isNumeral (cs : List Char) : Bool :=
  cs.all Char.isDigit

theorem value_digits (n : Nat) : value (digits n) = n :=
  Nat.ofDigitChars_ten_toDigits

theorem isNumeral_digits (n : Nat) : isNumeral (digits n) = true := by
  simp only [isNumeral, digits, List.all_eq_true]
  exact fun c hc => Nat.isDigit_of_mem_toDigits (by decide) (by decide) hc

theorem digits_ne_nil (n : Nat) : digits n ≠ [] :=
  Nat.toDigits_ne_nil

end Interpolants.Decimal
