import Detachment.Text.Numeral

/-! # JSON texts

A reader of JSON texts. It keeps what a strict consumer needs to know: whether a number is a plain
natural number, whether each escaped surrogate has its partner, and every member of an object,
repeated ones included.

* `parse?` reads a text that holds one value and white space around it. -/

namespace Detachment.Json

/-- The characters of a string; `none` stands for an escaped surrogate without its partner. -/
abbrev Chars := List (Option Char)

/-- A JSON value, with what a strict consumer needs to know of it. -/
inductive Value where
  /-- The value `null`. -/
  | null
  /-- A truth value. -/
  | bool (b : Bool)
  /-- A number written with digits only. -/
  | natural (n : Nat)
  /-- A number with a sign, a fraction or an exponent. -/
  | number
  /-- A string. -/
  | string (chars : Chars)
  /-- The values of an array. -/
  | array (items : List Value)
  /-- The members of an object in the order of the text. -/
  | object (members : List (Chars × Value))

/-- The text of a string in which no surrogate lacks its partner: absent if one of the `chars`
is. -/
def plain? (chars : Chars) : Option String :=
  (chars.mapM id).map String.ofList

/-! ## White space -/

/-- White space between the tokens of a text. -/
def isSpace (c : Char) : Bool :=
  c = ' ' || c = '\t' || c = '\n' || c = '\r'

/-- The text from the first character that is no white space. -/
def skipSpace (text : List Char) : List Char :=
  text.dropWhile isSpace

/-! ## Strings -/

/-- A character of a string as it is written: plain, or as the number of a UTF-16 unit. `joinPieces`
puts pairs of units together. -/
inductive Piece where
  /-- A character that stands for itself, or a short escape. -/
  | char (c : Char)
  /-- A UTF-16 unit. -/
  | unit (n : Nat)
  deriving DecidableEq, Repr

/-- The value of a hexadecimal digit. -/
def hexValue? (c : Char) : Option Nat :=
  if c.isDigit then some (c.toNat - '0'.toNat)
  else if 'a' ≤ c ∧ c ≤ 'f' then some (c.toNat - 'a'.toNat + 10)
  else if 'A' ≤ c ∧ c ≤ 'F' then some (c.toNat - 'A'.toNat + 10)
  else none

/-- The UTF-16 unit that four hexadecimal digits name behind an escaped `u`. -/
def hexUnit? (a b c d : Char) : Option Nat :=
  match hexValue? a, hexValue? b, hexValue? c, hexValue? d with
  | some a, some b, some c, some d => some (((a * 16 + b) * 16 + c) * 16 + d)
  | _, _, _, _ => none

/-- The character that a short escape stands for, such as `\n`. -/
def escaped? (c : Char) : Option Char :=
  match c with
  | '"' => some '"'
  | '\\' => some '\\'
  | '/' => some '/'
  | 'b' => some '\x08'
  | 'f' => some '\x0c'
  | 'n' => some '\n'
  | 'r' => some '\r'
  | 't' => some '\t'
  | _ => none

/-- Read a string behind its opening quote up to its closing quote; what follows this is given back.
Control characters have to be escaped. -/
def readPieces : List Char → Option (List Piece × List Char)
  | [] => none
  | '"' :: rest => some ([], rest)
  | '\\' :: 'u' :: a :: b :: c :: d :: rest =>
    match hexUnit? a b c d, readPieces rest with
    | some n, some (pieces, rest) => some (.unit n :: pieces, rest)
    | _, _ => none
  | '\\' :: c :: rest =>
    match escaped? c, readPieces rest with
    | some c, some (pieces, rest) => some (.char c :: pieces, rest)
    | _, _ => none
  | c :: rest =>
    if c.toNat < 0x20 then none
    else
      match readPieces rest with
      | some (pieces, rest) => some (.char c :: pieces, rest)
      | none => none

/-- Units of the first half of a surrogate pair, `0xD800` to `0xDBFF`. -/
def isLeading (n : Nat) : Bool :=
  0xD800 ≤ n && n < 0xDC00

/-- Units of the second half of a surrogate pair, `0xDC00` to `0xDFFF`. -/
def isTrailing (n : Nat) : Bool :=
  0xDC00 ≤ n && n < 0xE000

/-- The character of a surrogate pair, from `0x10000` on. -/
def pairChar (leading trailing : Nat) : Char :=
  Char.ofNat (0x10000 + (leading - 0xD800) * 0x400 + (trailing - 0xDC00))

/-- The characters of a string as it is written. A unit that `isLeading` and one that `isTrailing`
behind it are one character; without its partner, either is `none`. -/
def joinPieces : List Piece → Chars
  | [] => []
  | .char c :: rest => some c :: joinPieces rest
  | .unit n :: .unit m :: rest =>
    if isLeading n && isTrailing m then some (pairChar n m) :: joinPieces rest
    else if isLeading n || isTrailing n then none :: joinPieces (.unit m :: rest)
    else some (Char.ofNat n) :: joinPieces (.unit m :: rest)
  | .unit n :: rest =>
    (if isLeading n || isTrailing n then none else some (Char.ofNat n)) :: joinPieces rest

/-- Read a string behind its opening quote: `joinPieces` of what `readPieces` reads. -/
def readString (text : List Char) : Option (Chars × List Char) :=
  (readPieces text).map fun (pieces, rest) => (joinPieces pieces, rest)

/-! ## Numbers -/

/-- Read at least one digit. -/
def readDigits (text : List Char) : Option (List Char × List Char) :=
  match text.takeWhile Char.isDigit with
  | [] => none
  | digits => some (digits, text.dropWhile Char.isDigit)

/-- Read the digits before the point, without a leading zero: `0` itself is allowed. -/
def readWhole (text : List Char) : Option (List Char × List Char) :=
  match readDigits text with
  | some ('0' :: _ :: _, _) => none
  | other => other

/-- Read a point and the digits behind it, if there is a point; tells whether there was one. -/
def readFraction : List Char → Option (Bool × List Char)
  | '.' :: rest => (readDigits rest).map fun (_, rest) => (true, rest)
  | text => some (false, text)

/-- Read an exponent, if there is one; tells whether there was one. -/
def readExponent : List Char → Option (Bool × List Char)
  | c :: rest =>
    if c = 'e' || c = 'E' then
      let digits := match rest with
        | '+' :: rest => rest
        | '-' :: rest => rest
        | _ => rest
      (readDigits digits).map fun (_, rest) => (true, rest)
    else some (false, c :: rest)
  | [] => some (false, [])

/-- Read a number. It is `natural` if it has neither a sign nor a fraction nor an exponent. -/
def readNumber (text : List Char) : Option (Value × List Char) :=
  let (negative, whole) := match text with
    | '-' :: rest => (true, rest)
    | _ => (false, text)
  match readWhole whole with
  | none => none
  | some (digits, rest) =>
    match readFraction rest with
    | none => none
    | some (fraction, rest) =>
      match readExponent rest with
      | none => none
      | some (exponent, rest) =>
        if negative || fraction || exponent then some (.number, rest)
        else some (.natural (Nat.ofDigitChars 10 digits 0), rest)

/-! ## Values -/

mutual

/-- Read a value. The `bound` is on the nesting and the number of items that are read; `parse?` says
what is enough. -/
def readValue : Nat → List Char → Option (Value × List Char)
  | 0, _ => none
  | bound + 1, text =>
    match skipSpace text with
    | '"' :: rest => (readString rest).map fun (chars, rest) => (.string chars, rest)
    | '[' :: rest =>
      match skipSpace rest with
      | ']' :: rest => some (.array [], rest)
      | _ => (readItems bound rest).map fun (items, rest) => (.array items, rest)
    | '\x7b' :: rest =>
      match skipSpace rest with
      | '\x7d' :: rest => some (.object [], rest)
      | _ => (readMembers bound rest).map fun (members, rest) => (.object members, rest)
    | 'n' :: 'u' :: 'l' :: 'l' :: rest => some (.null, rest)
    | 't' :: 'r' :: 'u' :: 'e' :: rest => some (.bool true, rest)
    | 'f' :: 'a' :: 'l' :: 's' :: 'e' :: rest => some (.bool false, rest)
    | text => readNumber text

/-- Read the items of an array up to its closing bracket; there is at least one. -/
def readItems : Nat → List Char → Option (List Value × List Char)
  | 0, _ => none
  | bound + 1, text =>
    match readValue bound text with
    | none => none
    | some (item, rest) =>
      match skipSpace rest with
      | ']' :: rest => some ([item], rest)
      | ',' :: rest => (readItems bound rest).map fun (items, rest) => (item :: items, rest)
      | _ => none

/-- Read the members of an object up to its closing brace; there is at least one. -/
def readMembers : Nat → List Char → Option (List (Chars × Value) × List Char)
  | 0, _ => none
  | bound + 1, text =>
    match skipSpace text with
    | '"' :: rest =>
      match readString rest with
      | none => none
      | some (key, rest) =>
        match skipSpace rest with
        | ':' :: rest =>
          match readValue bound rest with
          | none => none
          | some (value, rest) =>
            match skipSpace rest with
            | '\x7d' :: rest => some ([(key, value)], rest)
            | ',' :: rest =>
              (readMembers bound rest).map fun (members, rest) => ((key, value) :: members, rest)
            | _ => none
        | _ => none
    | _ => none

end

/-- Read a text that holds one value and white space around it. Every second level of the reader
takes a character, so twice the length of the text bounds the depth of `readValue`. -/
def parse? (text : List Char) : Option Value :=
  match readValue (2 * text.length + 2) text with
  | some (value, rest) => if (skipSpace rest).isEmpty then some value else none
  | none => none

end Detachment.Json
