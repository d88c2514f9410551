/-! # Decoded contents

The contents of a file as characters, with a mark for each ill-formed sequence of bytes.

* `Contents.decode` reads bytes as UTF-8; a sequence that is cut short or continues wrongly is one
  mark.
* `Contents.lines` cuts contents at line feeds.
* `Contents.text?` is the text of contents without marks, and `Contents.lossy` shows marks as the
  replacement character. -/

namespace Detachment

/-- Characters, and `none` for each ill-formed sequence of bytes. -/
abbrev Contents := List (Option Char)

namespace Contents

/-- The contents that a text is stored as: its characters, without a mark. -/
def ofText (s : String) : Contents :=
  s.toList.map some

/-- The characters, if no sequence of bytes is ill-formed (`none`). -/
def text? : Contents → Option (List Char)
  | [] => some []
  | none :: _ => none
  | some c :: rest => (text? rest).map (c :: ·)

/-- The characters, with the replacement character for ill-formed sequences (`none`). -/
def lossy (s : Contents) : String :=
  String.ofList (s.map fun c => c.getD '�')

/-! ## Lines -/

/-- Take a carriage return off the end of a line, which is given backwards. -/
def dropReturn : Contents → Contents
  | some '\r' :: rest => rest
  | s => s

/-- The lines of contents after part of a `line`, which is given backwards. -/
def linesAfter : Contents → Contents → List Contents
  | line, [] => if line.isEmpty then [] else [line.reverse]
  | line, some '\n' :: rest => (dropReturn line).reverse :: linesAfter [] rest
  | line, c :: rest => linesAfter (c :: line) rest

/-- The lines of contents: each ends in a line feed, with or without a carriage return before it
(`dropReturn`), and the last may lack it. -/
def lines (s : Contents) : List Contents :=
  linesAfter [] s

/-! ## UTF-8 -/

/-- Where in a sequence of bytes the decoder is. -/
inductive Decoder where
  /-- Between two sequences. -/
  | start
  /-- Inside a sequence: how many bytes follow, in which range the next one lies, and the bits
  read. -/
  | inside (missing least most bits : Nat)

/-- What the first byte of a sequence leads to. The ranges leave out overlong sequences, surrogates
and what lies beyond Unicode. -/
def Decoder.first (byte : Nat) : Contents × Decoder :=
  if byte < 0x80 then ([some (Char.ofNat byte)], .start)
  else if 0xC2 ≤ byte ∧ byte ≤ 0xDF then ([], .inside 1 0x80 0xBF (byte % 0x20))
  else if byte = 0xE0 then ([], .inside 2 0xA0 0xBF (byte % 0x10))
  else if byte = 0xED then ([], .inside 2 0x80 0x9F (byte % 0x10))
  else if 0xE1 ≤ byte ∧ byte ≤ 0xEF then ([], .inside 2 0x80 0xBF (byte % 0x10))
  else if byte = 0xF0 then ([], .inside 3 0x90 0xBF (byte % 0x08))
  else if byte = 0xF4 then ([], .inside 3 0x80 0x8F (byte % 0x08))
  else if 0xF1 ≤ byte ∧ byte ≤ 0xF3 then ([], .inside 3 0x80 0xBF (byte % 0x08))
  else ([none], .start)

/-- What a byte leads to. A byte that does not continue a sequence ends it with a mark and is the
`first` of the next. -/
def Decoder.step (byte : Nat) : Decoder → Contents × Decoder
  | .start => first byte
  | .inside missing least most bits =>
    if least ≤ byte ∧ byte ≤ most then
      let bits := bits * 0x40 + byte % 0x40
      if missing ≤ 1 then ([some (Char.ofNat bits)], .start)
      else ([], .inside (missing - 1) 0x80 0xBF bits)
    else
      let next := first byte
      (none :: next.1, next.2)

/-- Decode bytes from a place in a sequence on, byte by byte (`Decoder.step`). -/
def decodeFrom : Decoder → List UInt8 → Contents
  | .start, [] => []
  | .inside .., [] => [none]
  | d, byte :: rest =>
    let next := d.step byte.toNat
    next.1 ++ decodeFrom next.2 rest

/-- Decode bytes as UTF-8, with a mark for each ill-formed sequence. -/
def decode (bytes : List UInt8) : Contents :=
  decodeFrom .start bytes

end Contents

end Detachment
