-- Where the lines of a text start, and the line and column of an offset.
import Untype.Text.Slice

namespace Untype.Text

/-- A place as a reader counts it: lines and columns start at 1, and a column counts
characters. -/
structure Location where
  line : Nat
  column : Nat
deriving DecidableEq, Repr

/-- The offsets just after each line break of `cs`, whose first character stands at `offset`.
LF, CR and the pair CR LF each end one line. -/
def lineStartsFrom (offset : Nat) : List Char → List Nat
  | [] => []
  | '\r' :: '\n' :: rest => (offset + 2) :: lineStartsFrom (offset + 2) rest
  | c :: rest =>
    if c == '\n' || c == '\r' then
      (offset + 1) :: lineStartsFrom (offset + 1) rest
    else
      lineStartsFrom (offset + c.utf8Size) rest

/-- The offsets at which the lines of a text start, in order. -/
structure LineMap where
  starts : List Nat
deriving DecidableEq, Repr

namespace LineMap

/-- The first line starts at 0, each other one just after a line break. -/
def ofText (text : String) : LineMap := ⟨0 :: lineStartsFrom 0 text.toList⟩

def count (map : LineMap) : Nat := map.starts.length

def start? (map : LineMap) (line : Nat) : Option Nat := map.starts[line]?

/-- The index of the line that starts at `pos`, or else of the first line that starts later. -/
def search (map : LineMap) (pos : Nat) : Except Nat Nat :=
  let next := map.starts.findIdx (pos ≤ ·)
  if map.start? next = some pos then .ok next else .error next

/-- The index of the last line that starts at or before `pos`. -/
def lineOf (map : LineMap) (pos : Nat) : Nat :=
  match map.search pos with
  | .ok line => line
  | .error next => next - 1

/-- The place of a byte offset. An offset inside a character counts bytes for its column,
and one past the end counts as the end. -/
def location (map : LineMap) (text : String) (pos : Nat) : Location :=
  let line := map.lineOf pos
  let start := (map.start? line).getD 0
  let stop := min pos text.utf8ByteSize
  let column := match slice? text start stop with
    | some part => part.length
    | none => stop - start
  ⟨line + 1, column + 1⟩

end LineMap

end Untype.Text
