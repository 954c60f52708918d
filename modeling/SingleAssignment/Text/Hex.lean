/-!
# Hexadecimal numerals

Offsets are written in base sixteen, in three shapes:

* `hexLower` — `0x` and lower-case digits, used inside phi texts.
* `hexUpper` — `0x` and upper-case digits, used in faults and log records.
* `hexPadded` — upper-case digits filled up with zeros, used in graph labels.
-/

namespace SingleAssignment.Text

/-- Upper-case digits of `n` in base sixteen, most significant first. -/
def upperDigits (n : Nat) : List Char := (Nat.toDigits 16 n).map Char.toUpper

/-- The numeral `0x…` with lower-case digits. -/
def hexLower (n : Nat) : String := "0x" ++ String.ofList (Nat.toDigits 16 n)

/-- The numeral `0x…` with upper-case digits. -/
def hexUpper (n : Nat) : String := "0x" ++ String.ofList (upperDigits n)

/-- Upper-case digits with leading zeros up to `width`; longer numerals are not cut. -/
def hexPadded (width n : Nat) : String := String.ofList ((upperDigits n).leftpad width '0')

end SingleAssignment.Text
