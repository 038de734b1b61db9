/-! Decimal numerals of 32-bit words. -/
namespace LargeObjects.Numeral

def write (n : Nat) : List Char := Nat.toDigits 10 n

/-- A word from decimal digits, at least one and any number of them leading zeros, after an optional
plus sign. A value past the last word is no numeral. -/
def read? (text : List Char) : Option UInt32 :=
  let digits := match text with
    | '+' :: rest => rest
    | _ => text
  let value := Nat.ofDigitChars 10 digits 0
  if digits ≠ [] ∧ digits.all Char.isDigit ∧ value < UInt32.size then some (UInt32.ofNat value)
  else none

end LargeObjects.Numeral
