-- Bytes of a source file, read as text: UTF-8, or UTF-16 after a byte order
-- mark.

namespace Untype.Text

/-- Why bytes are no UTF-8. The index is that of the first byte that does not belong. -/
inductive EncodingFault where
  | invalid (count index : Nat)
  | incomplete (index : Nat)
deriving DecidableEq, Repr

def EncodingFault.message : EncodingFault → String
  | .invalid count index =>
    "invalid utf-8 sequence of " ++ toString count ++ " bytes from index " ++ toString index
  | .incomplete index => "incomplete utf-8 byte sequence from index " ++ toString index

/-! ## UTF-8 -/

def isContinuation (b : UInt8) : Bool := 0x80 ≤ b && b ≤ 0xbf

/-- How many bytes a character has that starts with this one, 0 if none does. -/
def sequenceLength (b : UInt8) : Nat :=
  if b < 0x80 then 1
  else if b < 0xc2 then 0
  else if b ≤ 0xdf then 2
  else if b ≤ 0xef then 3
  else if b ≤ 0xf4 then 4
  else 0

/-- The second byte fits the first: no overlong form, no surrogate, nothing past U+10FFFF. -/
def isSecond (first b : UInt8) : Bool :=
  if first == 0xe0 then 0xa0 ≤ b && b ≤ 0xbf
  else if first == 0xed then 0x80 ≤ b && b ≤ 0x9f
  else if first == 0xf0 then 0x90 ≤ b && b ≤ 0xbf
  else if first == 0xf4 then 0x80 ≤ b && b ≤ 0x8f
  else isContinuation b

/-- The fault of a character of which `seen` bytes are read and `wanted` more must follow. -/
def tailFault (index seen : Nat) : (wanted : Nat) → List UInt8 → Option EncodingFault
  | 0, _ => none
  | _ + 1, [] => some (.incomplete index)
  | wanted + 1, b :: rest =>
    if isContinuation b then tailFault index (seen + 1) wanted rest
    else some (.invalid seen index)

/-- The fault of the character at the front, whose first byte is `first`. -/
def characterFault (index : Nat) (first : UInt8) (rest : List UInt8) : Option EncodingFault :=
  match sequenceLength first with
  | 0 => some (.invalid 1 index)
  | 1 => none
  | length =>
    match rest with
    | [] => some (.incomplete index)
    | second :: rest =>
      if isSecond first second then tailFault index 2 (length - 2) rest
      else some (.invalid 1 index)

/-- The first fault of bytes that start at `index`; the first `skip` of them belong to a
character that is already read. -/
def firstFault (index skip : Nat) : List UInt8 → Option EncodingFault
  | [] => none
  | b :: rest =>
    match skip with
    | skip + 1 => firstFault (index + 1) skip rest
    | 0 =>
      match characterFault index b rest with
      | some fault => some fault
      | none => firstFault (index + 1) (sequenceLength b - 1) rest

/-! ## UTF-16 -/

inductive ByteOrder where
  | bigEndian
  | littleEndian
deriving DecidableEq, Repr

/-- The units of bytes; an odd last byte is ignored. -/
def units (order : ByteOrder) : List UInt8 → List Nat
  | a :: b :: rest =>
    (match order with
      | .bigEndian => a.toNat * 256 + b.toNat
      | .littleEndian => b.toNat * 256 + a.toNat) :: units order rest
  | _ => []

def isHighSurrogate (u : Nat) : Bool := 0xd800 ≤ u && u < 0xdc00

def isLowSurrogate (u : Nat) : Bool := 0xdc00 ≤ u && u < 0xe000

/-- The characters of units. A surrogate without its partner becomes U+FFFD. -/
def ofUnits : List Nat → List Char
  | [] => []
  | [u] => [if isHighSurrogate u || isLowSurrogate u then '\ufffd' else Char.ofNat u]
  | u :: v :: rest =>
    if isHighSurrogate u then
      if isLowSurrogate v then
        Char.ofNat (0x10000 + (u - 0xd800) * 0x400 + (v - 0xdc00)) :: ofUnits rest
      else
        '\ufffd' :: ofUnits (v :: rest)
    else if isLowSurrogate u then
      '\ufffd' :: ofUnits (v :: rest)
    else
      Char.ofNat u :: ofUnits (v :: rest)

/-! ## Source files -/

/-- The text of a source file. A UTF-8 byte order mark stays in the text. -/
def decode (bytes : ByteArray) : Except EncodingFault String :=
  match bytes.toList with
  | 0xfe :: 0xff :: rest => .ok (String.ofList (ofUnits (units .bigEndian rest)))
  | 0xff :: 0xfe :: rest => .ok (String.ofList (ofUnits (units .littleEndian rest)))
  | all =>
    match String.fromUTF8? bytes with
    | some text => .ok text
    | none => .error ((firstFault 0 0 all).getD (.incomplete all.length))

end Untype.Text
