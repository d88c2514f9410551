/-! # Quoted strings

How a string is written in a JSON text: quotes, backslashes and control characters are escaped, and
nothing else is. -/

namespace Detachment.Json

/-- A hexadecimal digit in lower case, for `n < 16`. -/
def hexDigit (n : Nat) : Char :=
  Nat.digitChar n

/-- A character as it is written inside a string. Control characters without a short escape are
written as `\u00` and two digits. -/
def escapeChar (c : Char) : List Char :=
  match c with
  | '"' => ['\\', '"']
  | '\\' => ['\\', '\\']
  | '\x08' => ['\\', 'b']
  | '\x0c' => ['\\', 'f']
  | '\n' => ['\\', 'n']
  | '\r' => ['\\', 'r']
  | '\t' => ['\\', 't']
  | c =>
    if c.toNat < 0x20 then ['\\', 'u', '0', '0', hexDigit (c.toNat / 16), hexDigit (c.toNat % 16)]
    else [c]

/-- A string as it is written, with its quotes; `escapeChar` writes the characters. -/
def quote (s : String) : String :=
  String.ofList ('"' :: s.toList.flatMap escapeChar ++ ['"'])

end Detachment.Json
