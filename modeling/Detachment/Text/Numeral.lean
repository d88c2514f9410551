/-! # Decimal numerals

Reading an unsigned decimal numeral below a bound, and the digits of a natural number. -/

namespace Detachment.Text

/-- The value of an ASCII decimal digit, `0` to `9`. -/
def digitValue? (c : Char) : Option Nat :=
  if c.isDigit then some (c.toNat - '0'.toNat) else none

/-- Add one digit to a number, if the result `10 * value + digit` stays below the bound. -/
def pushDigit? (bound value digit : Nat) : Option Nat :=
  let next := 10 * value + digit
  if next < bound then some next else none

/-- Read the digits after `value` has been read, refusing anything else and refusing the bound
(`pushDigit?`). -/
def readDigits? (bound : Nat) : Nat → List Char → Option Nat
  | value, [] => some value
  | value, c :: rest =>
    match digitValue? c with
    | none => none
    | some digit =>
      match pushDigit? bound value digit with
      | none => none
      | some next => readDigits? bound next rest

/-- Read an unsigned numeral below `bound`: an optional plus sign, then at least one digit. -/
def readNumeral? (bound : Nat) (s : List Char) : Option Nat :=
  let digits := match s with
    | '+' :: rest => rest
    | _ => s
  if digits.isEmpty then none else readDigits? bound 0 digits

/-- The first number that 32 bits cannot hold, `2 ^ 32`. -/
def bound32 : Nat := 4294967296

/-- The first number that 64 bits cannot hold, `2 ^ 64`. -/
def bound64 : Nat := 18446744073709551616

/-- The decimal digits of a number, without leading zeros; `readNumeral?` reads them. -/
def digits (n : Nat) : List Char :=
  Nat.toDigits 10 n

/-- A list of texts with a `separator` between each two. -/
def join (separator : String) (texts : List String) : String :=
  String.intercalate separator texts

end Detachment.Text
