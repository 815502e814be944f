-- Where a converted file goes: `.ts` becomes `.js`, `.tsx` becomes `.jsx`.
import Untype.Files.Path

namespace Untype

/-- A path whose extension has no counterpart. -/
structure ExtensionError where
  path : String
deriving DecidableEq, Repr

def ExtensionError.message (error : ExtensionError) : String :=
  "'" ++ error.path ++ "' has no JavaScript counterpart extension"

namespace Path

/-- The extension of a converted file. Case does not count. -/
def targetExtension? (extension : String) : Option String :=
  let extension := Text.lowerCase extension
  if extension == "ts" then some "js"
  else if extension == "tsx" then some "jsx"
  else none

def target (path : String) : Except ExtensionError String :=
  match (extension? path).bind targetExtension? with
  | some extension => .ok (withExtension extension path)
  | none => .error ⟨path⟩

end Path

end Untype
