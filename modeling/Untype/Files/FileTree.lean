-- Files and directories as a value, with the few things that a conversion
-- does to them.
import Untype.Files.Path

namespace Untype

/-- A file, or a directory with its entries. Names that are no text, links, and entries that can
not be read are left out. -/
inductive FileTree where
  | file (name : String) (content : ByteArray)
  | directory (name : String) (entries : List FileTree)

/-- Why something cannot be done to a path, in the words of the system. -/
inductive FileFault where
  | missing
  | notADirectory
  | isADirectory
  | notText
  | refused (words : String)
deriving DecidableEq, Repr

def FileFault.message : FileFault → String
  | missing => "No such file or directory (os error 2)"
  | notADirectory => "Not a directory (os error 20)"
  | isADirectory => "Is a directory (os error 21)"
  | notText => "stream did not contain valid UTF-8"
  | refused words => words

namespace FileTree

/-! ## Parts -/

def name : FileTree → String
  | file name _ => name
  | directory name _ => name

def entries : FileTree → List FileTree
  | file _ _ => []
  | directory _ entries => entries

def isDirectory : FileTree → Bool
  | file _ _ => false
  | directory _ _ => true

def content? : FileTree → Option ByteArray
  | file _ content => some content
  | directory _ _ => none

def withName (name : String) : FileTree → FileTree
  | file _ content => file name content
  | directory _ entries => directory name entries

/-! ## Places -/

/-- What stands at a place, given by the names on the way to it. -/
def find? : List String → FileTree → Option FileTree
  | [], tree => some tree
  | name :: rest, tree => (tree.entries.find? fun entry => entry.name == name).bind (find? rest)

def mapAt (change : FileTree → FileTree) : List String → FileTree → FileTree
  | [], tree => change tree
  | _ :: _, file name content => file name content
  | name :: rest, directory own entries =>
    directory own (entries.map fun entry =>
      if entry.name == name then mapAt change rest entry else entry)

def setContent (content : ByteArray) : List String → FileTree → FileTree :=
  mapAt fun
    | file name _ => file name content
    | tree => tree

def mapEntries (change : List FileTree → List FileTree) : List String → FileTree → FileTree :=
  mapAt fun
    | directory name entries => directory name (change entries)
    | tree => tree

def erase (place : List String) (tree : FileTree) : FileTree :=
  match place.getLast? with
  | none => tree
  | some name => mapEntries (·.filter fun entry => entry.name != name) place.dropLast tree

def move (source target : List String) (tree : FileTree) : FileTree :=
  match tree.find? source, target.getLast? with
  | some entry, some name =>
    mapEntries (· ++ [entry.withName name]) target.dropLast (tree.erase source)
  | _, _ => tree

/-- Adds a file, or an empty directory if there is no content, to the entries of a directory.
Directories on the way are made where they are missing. -/
def put (content : Option ByteArray) : List String → List FileTree → List FileTree
  | [], entries => entries
  | name :: rest, entries =>
    let old := entries.find? fun entry => entry.name == name
    let entry : FileTree := match rest, content with
      | [], some bytes => file name bytes
      | rest, content => directory name (put content rest ((old.map FileTree.entries).getD []))
    if old.isSome then
      entries.map fun other => if other.name == name then entry else other
    else
      entries ++ [entry]

/-- The entries of a directory that holds the files at these paths. A path without content is
an empty directory. -/
def ofFiles (files : List (String × Option ByteArray)) : List FileTree :=
  files.foldl (fun entries (path, content) =>
    let names := (Path.pieces path.toList).map String.ofList
    put content (names.filter fun name => name != "" && name != ".") entries) []

/-! ## Paths -/

/-- Follows the pieces of a path from a place. Empty pieces and dots stay, two dots go up, and
all of them need a directory to start from. -/
def follow (tree : FileTree) : List String → List String → Except FileFault (List String)
  | [], place => .ok place
  | piece :: rest, place =>
    match tree.find? place with
    | none => .error .missing
    | some (file _ _) => .error .notADirectory
    | some (directory _ entries) =>
      if piece == "" || piece == "." then
        follow tree rest place
      else if piece == ".." then
        if place.isEmpty then .error .missing else follow tree rest place.dropLast
      else if entries.any fun entry => entry.name == piece then
        follow tree rest (place ++ [piece])
      else
        .error .missing

/-- The place of a path that starts at the top of the tree. -/
def resolve (tree : FileTree) (path : String) : Except FileFault (List String) :=
  let pieces := (Path.pieces path.toList).map String.ofList
  if path.isEmpty || path.toList.head? == some '/' then .error .missing
  else follow tree pieces []

def at? (tree : FileTree) (path : String) : Except FileFault FileTree := do
  match tree.find? (← tree.resolve path) with
  | some entry => .ok entry
  | none => .error .missing

def has (tree : FileTree) (path : String) : Bool := (tree.at? path).isOk

def hasDirectory (tree : FileTree) (path : String) : Bool :=
  match tree.at? path with
  | .ok entry => entry.isDirectory
  | .error _ => false

def read (tree : FileTree) (path : String) : Except FileFault ByteArray := do
  match ← tree.at? path with
  | file _ content => .ok content
  | directory _ _ => .error .isADirectory

def readText (tree : FileTree) (path : String) : Except FileFault String := do
  match String.fromUTF8? (← tree.read path) with
  | some text => .ok text
  | none => .error .notText

/-- Sets the bytes of a file that is there. -/
def write (tree : FileTree) (path : String) (content : ByteArray) : Except FileFault FileTree := do
  let place ← tree.resolve path
  match tree.find? place with
  | some (file _ _) => .ok (tree.setContent content place)
  | some (directory _ _) => .error .isADirectory
  | none => .error .missing

/-- Gives the file at a path another name in its directory. -/
def rename (tree : FileTree) (path target : String) : Except FileFault FileTree := do
  let place ← tree.resolve path
  match Path.fileName? target with
  | some name => .ok (tree.move place (place.dropLast ++ [name]))
  | none => .error .missing

def remove (tree : FileTree) (path : String) : Except FileFault FileTree := do
  let place ← tree.resolve path
  match tree.find? place with
  | some (file _ _) => .ok (tree.erase place)
  | some (directory _ _) => .error .isADirectory
  | none => .error .missing

/-! ## Listings -/

mutual

/-- The files below, with their paths and bytes. An empty directory is listed with a slash and
without bytes. -/
def list (path : String) : FileTree → List (String × Option ByteArray)
  | file _ content => [(path, some content)]
  | directory _ entries =>
    if entries.isEmpty then [(path ++ "/", none)] else listOf path entries

def listOf (path : String) : List FileTree → List (String × Option ByteArray)
  | [] => []
  | entry :: rest => list (Path.join path entry.name) entry ++ listOf path rest

end

def listing (tree : FileTree) : List (String × Option ByteArray) :=
  (listOf "" tree.entries).mergeSort fun a b => a.1 ≤ b.1

end FileTree

end Untype
