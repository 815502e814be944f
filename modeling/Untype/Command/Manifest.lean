-- The packages of a project, which its `package.json` lists.
import Untype.Files.FileTree
import Untype.Json.Reader

namespace Untype.Command

/-- The names of the file that lists packages and of the one that sets up the types. -/
def manifestFile : String := "package.json"

def typeConfigFile : String := "tsconfig.json"

/-- The packages that a manifest lists, each once and in its order. -/
def dependencyNames (manifest : Json) : List String :=
  let section? (key : String) : List String :=
    (((manifest.field? key).bind Json.fields?).getD []).map (·.1)
  (section? "dependencies" ++ section? "devDependencies").eraseDups

def isTypePackage (name : String) : Bool :=
  name == "typescript" || "@types/".toList.isPrefixOf name.toList

/-- The packages that the manifest of a directory lists. Without a manifest there are none. -/
def packagesOf (tree : FileTree) (directory : String) : Except String (List String) :=
  let path := Path.join directory manifestFile
  match tree.readText path with
  | .error .missing => .ok []
  | .error fault => .error ("failed to read " ++ path ++ ": " ++ fault.message)
  | .ok text =>
    match Json.ofText text with
    | .ok manifest => .ok (dependencyNames manifest)
    | .error fault => .error ("failed to parse " ++ path ++ ": " ++ fault.message text)

/-- Takes away the file that sets up the types, and says whether there was one. -/
def removeTypeConfig (tree : FileTree) (directory : String) : Except FileFault (Bool × FileTree) :=
  match tree.remove (Path.join directory typeConfigFile) with
  | .ok tree => .ok (true, tree)
  | .error .missing => .ok (false, tree)
  | .error fault => .error fault

end Untype.Command
