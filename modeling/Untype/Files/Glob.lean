-- Patterns for the names of files and directories. They are matched byte by
-- byte, the whole text at once, and the case of ASCII letters does not count.
import Untype.Text.Chars

namespace Untype

/-! ## Patterns -/

inductive Piece where
  | literal (char : Char)
  | anyByte
  /-- Any bytes, none as well. -/
  | anyBytes
  /-- Nothing, or any directories at the front. -/
  | leading
  /-- A slash and anything after it. -/
  | trailing
  /-- A slash, or any directories between two slashes. -/
  | between
  /-- One byte of these characters, or of all others. -/
  | oneOf (negated : Bool) (ranges : List (Char × Char))
  | choice (branches : List (List Piece))

abbrev Glob := List Piece

namespace Glob

inductive Fault where
  | unclosedClass
  | unclosedChoice
  | unopenedChoice
  | invalidRange (first last : Char)
  | danglingEscape
deriving DecidableEq, Repr

def Fault.message : Fault → String
  | unclosedClass => "unclosed character class; missing ']'"
  | unclosedChoice =>
    "unclosed alternate group; missing '\x7d' (maybe escape '\x7b' with '[\x7b]'?)"
  | unopenedChoice =>
    "unopened alternate group; missing '\x7b' (maybe escape '\x7d' with '[\x7d]'?)"
  | invalidRange first last =>
    "invalid range; '" ++ first.toString ++ "' > '" ++ last.toString ++ "'"
  | danglingEscape => "dangling '\\'"

/-! ## Reading -/

structure OpenChoice where
  /-- The pieces before it, the last one first. -/
  before : List Piece
  branches : List (List Piece)

structure OpenClass where
  negated : Bool
  /-- The ranges so far, the last one first. -/
  ranges : List (Char × Char) := []
  isFirst : Bool := true
  /-- A hyphen was read that may join the last range to the next character. -/
  inRange : Bool := false

/-- What has been read. -/
structure Draft where
  /-- The pieces of the innermost branch, the last one first. -/
  pieces : List Piece := []
  /-- The choices that are open, the innermost first. -/
  choices : List OpenChoice := []
  charClass : Option OpenClass := none
  previous : Option Char := none

namespace Draft

def push (d : Draft) (char : Char) (piece : Piece) : Draft :=
  { d with pieces := piece :: d.pieces, previous := some char }

/-- Two stars that are no directories are like one. -/
def pushStars (d : Draft) : Draft := (d.push '*' .anyBytes).push '*' .anyBytes

/-- Two stars after a slash take its place. -/
def pushDirectories (d : Draft) (char : Char) (isLast : Bool) : Draft :=
  let piece : Piece := match d.pieces.head? with
    | some .leading => .leading
    | some .trailing => .trailing
    | _ => if isLast then .trailing else .between
  { d with pieces := piece :: d.pieces.tail, previous := some char }

/-- Two stars after other pieces stand for directories only if they begin a component. -/
def beginsComponent (d : Draft) : Bool :=
  d.previous == some '/' ||
    (!d.choices.isEmpty && (d.previous == some ',' || d.previous == some '\x7b'))

def openChoice (d : Draft) : Draft :=
  { d with
    pieces := [], choices := ⟨d.pieces, []⟩ :: d.choices, previous := some '\x7b' }

/-- A comma begins a new branch. Outside of choices it stands for itself. -/
def nextBranch (d : Draft) : Draft :=
  match d.choices with
  | [] => d.push ',' (.literal ',')
  | choice :: outer =>
    { d with
      pieces := []
      choices := { choice with branches := choice.branches ++ [d.pieces.reverse] } :: outer
      previous := some ',' }

def closeChoice (d : Draft) : Except Fault Draft :=
  match d.choices with
  | [] => .error .unopenedChoice
  | choice :: outer =>
    .ok { d with
      pieces := .choice (choice.branches ++ [d.pieces.reverse]) :: choice.before
      choices := outer
      previous := some '\x7d' }

def openClass (d : Draft) (negated : Bool) : Draft := { d with charClass := some { negated } }

end Draft

namespace OpenClass

def add (c : OpenClass) (char : Char) : Except Fault OpenClass :=
  match c.inRange, c.ranges with
  | true, (first, _) :: others =>
    if char < first then .error (.invalidRange first char)
    else .ok { c with ranges := (first, char) :: others, isFirst := false, inRange := false }
  | _, ranges =>
    .ok { c with ranges := (char, char) :: ranges, isFirst := false, inRange := false }

/-- The class as a piece. A hyphen at its end stands for itself. -/
def piece (c : OpenClass) : Piece :=
  let ranges := if c.inRange then ('-', '-') :: c.ranges else c.ranges
  .oneOf c.negated ranges.reverse

end OpenClass

def readFrom (d : Draft) (cs : List Char) : Except Fault Glob :=
  match d.charClass, cs with
  | some _, [] => .error .unclosedClass
  | some c, ']' :: rest =>
    if c.isFirst then do
      readFrom { d with charClass := some (← c.add ']') } rest
    else
      readFrom ({ d with charClass := none }.push ']' c.piece) rest
  | some c, '-' :: rest =>
    if c.isFirst || c.inRange then do
      readFrom { d with charClass := some (← c.add '-') } rest
    else
      readFrom { d with charClass := some { c with inRange := true } } rest
  | some c, char :: rest => do
    readFrom { d with charClass := some (← c.add char) } rest
  | none, [] => if d.choices.isEmpty then .ok d.pieces.reverse else .error .unclosedChoice
  | none, '?' :: rest => readFrom (d.push '?' .anyByte) rest
  | none, '*' :: '*' :: rest =>
    if d.pieces.isEmpty then
      match rest with
      | [] => readFrom (d.push '*' .leading) []
      | '/' :: rest => readFrom (d.push '/' .leading) rest
      | rest => readFrom d.pushStars rest
    else if d.beginsComponent then
      match rest with
      | [] => readFrom (d.pushDirectories '*' true) []
      | '/' :: rest => readFrom (d.pushDirectories '/' false) rest
      | rest =>
        let endsBranch := rest.head? == some ',' || rest.head? == some '\x7d'
        if endsBranch && !d.choices.isEmpty then readFrom (d.pushDirectories '*' true) rest
        else readFrom d.pushStars rest
    else
      readFrom d.pushStars rest
  | none, '*' :: rest => readFrom (d.push '*' .anyBytes) rest
  | none, '[' :: '!' :: rest => readFrom (d.openClass true) rest
  | none, '[' :: '^' :: rest => readFrom (d.openClass true) rest
  | none, '[' :: rest => readFrom (d.openClass false) rest
  | none, '\x7b' :: rest => readFrom d.openChoice rest
  | none, '\x7d' :: rest => do readFrom (← d.closeChoice) rest
  | none, ',' :: rest => readFrom d.nextBranch rest
  | none, ['\\'] => .error .danglingEscape
  | none, '\\' :: char :: rest => readFrom (d.push char (.literal char)) rest
  | none, char :: rest => readFrom (d.push char (.literal char)) rest

def ofText (text : String) : Except Fault Glob := readFrom {} text.toList

/-! ## Matching -/

def bytesOf (c : Char) : List UInt8 := String.utf8EncodeChar c

/-- The byte of a small letter for the byte of a capital one. -/
def foldByte (b : UInt8) : UInt8 := if 65 ≤ b && b ≤ 90 then b + 32 else b

/-- Takes bytes from the front, whatever their case. -/
def dropBytes : List UInt8 → List UInt8 → List (List UInt8)
  | [], input => [input]
  | _ :: _, [] => []
  | p :: ps, b :: input => if foldByte p == foldByte b then dropBytes ps input else []

/-- The ranges of bytes that a range of characters stands for. Only the last byte of its
first and the first byte of its last character span one. -/
def byteRanges (range : Char × Char) : List (UInt8 × UInt8) :=
  let single (b : UInt8) : UInt8 × UInt8 := (b, b)
  let first := bytesOf range.1
  let last := bytesOf range.2
  if range.1 == range.2 then
    first.map single
  else
    match first.getLast?, last.head? with
    | some low, some high => first.dropLast.map single ++ (low, high) :: last.tail.map single
    | _, _ => []

def swapCase (b : UInt8) : UInt8 :=
  if 65 ≤ b && b ≤ 90 then b + 32 else if 97 ≤ b && b ≤ 122 then b - 32 else b

/-- The byte is in one of the ranges, whatever its case. -/
def inRanges (ranges : List (Char × Char)) (b : UInt8) : Bool :=
  (ranges.flatMap byteRanges).any fun (low, high) =>
    (low ≤ b && b ≤ high) || (low ≤ swapCase b && swapCase b ≤ high)

def suffixes : List UInt8 → List (List UInt8)
  | [] => [[]]
  | b :: rest => (b :: rest) :: suffixes rest

def slash : UInt8 := 47

def afterSlashes : List UInt8 → List (List UInt8)
  | [] => []
  | b :: rest => if b == slash then rest :: afterSlashes rest else afterSlashes rest

mutual

/-- The piece stands for no text at all. Such a branch of a choice is no branch. -/
def isBlank : Piece → Bool
  | .choice branches => areBlank branches
  | _ => false

def areBlank : List (List Piece) → Bool
  | [] => true
  | branch :: rest => isBlankBranch branch && areBlank rest

def isBlankBranch : List Piece → Bool
  | [] => true
  | piece :: rest => isBlank piece && isBlankBranch rest

end

mutual

/-- All that can remain of the input after the piece. -/
def rests (input : List UInt8) : Piece → List (List UInt8)
  | .literal char => dropBytes (bytesOf char) input
  | .anyByte => match input with
    | [] => []
    | _ :: rest => [rest]
  | .anyBytes => suffixes input
  | .leading => input :: afterSlashes input
  | .trailing => match input with
    | [] => []
    | b :: rest => if b == slash then suffixes rest else []
  | .between => match input with
    | [] => []
    | b :: rest => if b == slash then rest :: afterSlashes rest else []
  | .oneOf negated ranges => match input with
    | [] => []
    | b :: rest => if inRanges ranges b != negated then [rest] else []
  | .choice branches => if areBlank branches then [input] else restsOfAny input branches

/-- All that can remain after the pieces, from any of the inputs. -/
def restsOfAll (inputs : List (List UInt8)) : List Piece → List (List UInt8)
  | [] => inputs
  | piece :: pieces =>
    restsOfAll ((inputs.flatMap fun input => rests input piece).eraseDups) pieces

/-- All that can remain after one of the branches. -/
def restsOfAny (input : List UInt8) : List (List Piece) → List (List UInt8)
  | [] => []
  | branch :: branches =>
    (if isBlankBranch branch then [] else restsOfAll [input] branch) ++ restsOfAny input branches

end

/-- The pattern matches the text. Two stars alone match all texts. -/
def isMatch (glob : Glob) (text : String) : Bool :=
  match glob with
  | [.leading] => true
  | pieces => (restsOfAll [text.toList.flatMap bytesOf] pieces).any List.isEmpty

end Glob

end Untype
