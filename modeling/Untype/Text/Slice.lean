-- Texts cut at byte offsets. Every offset of the library counts the bytes
-- of the UTF-8 form, so that tokens, nodes and reports speak of the same
-- places. Offsets have no bound: texts of 4 GiB and more, which offsets of 32
-- bits cannot count, are left out.

namespace Untype.Text

def byteLength (cs : List Char) : Nat := cs.foldr (fun c size => c.utf8Size + size) 0

/-- The text from byte `start` to byte `stop`. There is none when the offsets are out of
order, past the end, or inside a character. -/
def slice? (text : String) (start stop : Nat) : Option String :=
  if start ≤ stop ∧ stop ≤ text.utf8ByteSize then
    String.fromUTF8? (text.toByteArray.extract start stop)
  else
    none

/-- The text from byte `start` to byte `stop`, empty where `slice?` has none. -/
def slice (text : String) (start stop : Nat) : String := (slice? text start stop).getD ""

def takeBytes : Nat → List Char → List Char
  | _, [] => []
  | bytes, c :: rest =>
    if c.utf8Size ≤ bytes then c :: takeBytes (bytes - c.utf8Size) rest else []

end Untype.Text
