-- The branch that a conversion runs on. It has one of its own, unless the
-- name of the current one shows that it is meant for a conversion.
import Untype.Text.Chars

namespace Untype.Command

def conversionBranch : String := "convert-ts-to-js"

def occursIn (word : List Char) : List Char → Bool
  | [] => word.isEmpty
  | c :: rest => word.isPrefixOf (c :: rest) || occursIn word rest

/-- The name of the branch mentions one of the two languages, in any case. -/
def isConversionBranch (name : String) : Bool :=
  let chars := name.toList.map Text.asciiLower
  occursIn "ts".toList chars || occursIn "js".toList chars

inductive BranchAction where
  | kept (name : String)
  | created (name : String)
deriving DecidableEq, Repr

end Untype.Command
