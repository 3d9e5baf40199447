/-!
# Numerals and columns

Hexadecimal digits, and texts padded to a column.
-/

namespace Gamebook.Text

/-- `s` with as many `c` before it as make it `width` characters long. -/
def padLeft (width : Nat) (c : Char) (s : String) : String :=
  String.ofList (List.replicate (width - s.length) c) ++ s

/-- `s` with as many blanks behind it as make it `width` characters long. -/
def padRight (width : Nat) (s : String) : String :=
  s ++ String.ofList (List.replicate (width - s.length) ' ')

/-- The lower-case hexadecimal numeral of `n`, without leading zeros. -/
def hexLower (n : Nat) : String := String.ofList (Nat.toDigits 16 n)

/-- The upper-case hexadecimal numeral of `n`, with leading zeros up to `width` digits. -/
def hexUpper (width n : Nat) : String :=
  padLeft width '0' (String.ofList ((Nat.toDigits 16 n).map Char.toUpper))

/-- The value of a digit in a base up to sixteen. -/
def digit? (base : Nat) (c : Char) : Option Nat :=
  let value :=
    if '0' ≤ c ∧ c ≤ '9' then some (c.toNat - '0'.toNat)
    else if 'a' ≤ c ∧ c ≤ 'f' then some (c.toNat - 'a'.toNat + 10)
    else if 'A' ≤ c ∧ c ≤ 'F' then some (c.toNat - 'A'.toNat + 10)
    else none
  value.filter (· < base)

end Gamebook.Text
