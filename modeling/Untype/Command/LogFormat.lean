-- The forms of a log.
import Untype.Text.Chars

namespace Untype.Command

inductive LogFormat where
  | text
  | tree
  | json
deriving DecidableEq, Repr

/-- The form with this name, in any case. All other names are plain text. -/
def LogFormat.ofName (name : String) : LogFormat :=
  let name := Text.lowerCase name
  if name == "tree" then .tree
  else if name == "json" then .json
  else .text

end Untype.Command
