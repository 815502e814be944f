-- A buffer for lines that are laid out anew.
import Untype.Text.Indent

namespace Untype.Text

/-- Text under construction. `pending` says that the next piece starts a line and needs its
indentation. -/
structure Writer where
  output : String := ""
  baseIndent : String := ""
  unit : String := defaultIndentUnit
  level : Nat := 0
  pending : Bool := false
deriving DecidableEq, Repr

namespace Writer

def repeated (unit : String) : Nat → String
  | 0 => ""
  | n + 1 => unit ++ repeated unit n

def raw (w : Writer) (text : String) : Writer :=
  { w with output := w.output ++ text, pending := w.pending && text.isEmpty }

def write (w : Writer) (text : String) : Writer :=
  if text.isEmpty then w
  else
    let indent := if w.pending then w.baseIndent ++ repeated w.unit w.level else ""
    { w with output := w.output ++ indent ++ text, pending := false }

def space (w : Writer) : Writer := w.write " "

def line (w : Writer) : Writer := { w with output := w.output ++ "\n", pending := true }

def indent (w : Writer) : Writer := { w with level := w.level + 1 }

def dedent (w : Writer) : Writer := { w with level := w.level - 1 }

end Writer

end Untype.Text
