-- The files of a directory that are to be converted.
import Untype.Erasure.Options
import Untype.Files.FileTree
import Untype.Files.Glob

namespace Untype

structure Config where
  root : String
  /-- Patterns of directories to skip, by name or by path below the root. -/
  exclude : List String := ["node_modules", ".git"]
  /-- Patterns of the names of files to convert. -/
  extensions : List String := ["*.ts", "*.tsx"]
  /-- Leave files alone that only declare. -/
  skipDeclarations : Bool := true
  /-- The number of workers, which no result depends on. -/
  jobs : Option Nat := none
  options : Erasure.Options := {}
deriving DecidableEq, Repr

/-- Why a run stops before it touches any file. That no workers can be started is left out. -/
inductive ConvertError where
  | missingRoot (root : String)
  | notADirectory (root : String)
  | invalidPattern (pattern : String) (fault : Glob.Fault)
  | walk (root : String) (fault : FileFault)
deriving DecidableEq, Repr

namespace ConvertError

/-- The error that lies behind an error, and the one behind that. -/
def causes : ConvertError → List String
  | missingRoot _ => []
  | notADirectory _ => []
  | invalidPattern pattern fault =>
    ["error parsing glob '" ++ pattern ++ "': " ++ fault.message]
  | walk root fault =>
    ["IO error for operation on " ++ root ++ ": " ++ fault.message, fault.message]

def message (error : ConvertError) : String :=
  let cause := (error.causes.head?).getD ""
  match error with
  | missingRoot root => "directory '" ++ root ++ "' does not exist"
  | notADirectory root => "'" ++ root ++ "' is not a directory"
  | invalidPattern pattern _ => "invalid pattern '" ++ pattern ++ "': " ++ cause
  | walk root _ => "failed to walk '" ++ root ++ "': " ++ cause

end ConvertError

/-- Patterns that are read. -/
structure Selection where
  excluded : List Glob
  included : List Glob
  skipDeclarations : Bool

namespace Selection

/-- Reads patterns. The first faulty one is told. -/
def globs (patterns : List String) : Except ConvertError (List Glob) :=
  patterns.mapM fun pattern => (Glob.ofText pattern).mapError (.invalidPattern pattern)

def ofConfig (config : Config) : Except ConvertError Selection := do
  let excluded ← globs config.exclude
  let included ← globs config.extensions
  return { excluded, included, skipDeclarations := config.skipDeclarations }

/-- A file that only declares: its name without the extension ends in `.d`, in any case. -/
def isDeclarationFile (name : String) : Bool :=
  let reversed := (name.toList.map Text.asciiLower).reverse
  match reversed.dropWhile (· != '.') with
  | '.' :: 'd' :: '.' :: _ => true
  | _ => false

def selects (s : Selection) (name : String) : Bool :=
  s.included.any (·.isMatch name) && !(s.skipDeclarations && isDeclarationFile name)

def skips (s : Selection) (name path : String) : Bool :=
  s.excluded.any (·.isMatch name) || s.excluded.any (·.isMatch path)

mutual

/-- The files to convert in a tree. `path` leads to it, and `below` does from the root. -/
def sources (s : Selection) (path below : String) : FileTree → List String
  | .file name _ => if s.selects name then [path] else []
  | .directory _ entries => sourcesOf s path below entries

def sourcesOf (s : Selection) (path below : String) : List FileTree → List String
  | [] => []
  | entry :: rest =>
    let inner := Path.join below entry.name
    (if entry.isDirectory && s.skips entry.name inner then []
      else sources s (Path.join path entry.name) inner entry) ++ sourcesOf s path below rest

end

end Selection

def discover (config : Config) (tree : FileTree) : Except ConvertError (List String) := do
  let selection ← Selection.ofConfig config
  match tree.at? config.root with
  | .ok entry => .ok ((selection.sources config.root "" entry).mergeSort Path.le)
  | .error fault => .error (.walk config.root fault)

end Untype
