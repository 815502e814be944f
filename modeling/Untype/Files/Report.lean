-- The conversion of a directory: first every file is written, then the
-- written files get their new names.
import Untype.Convert
import Untype.Files.Discovery
import Untype.Files.Target
import Untype.Text.Encoding

namespace Untype

/-- Why a file is not converted, or not to the end. -/
inductive FileError where
  | read (reason : String)
  | parse (error : ParseError)
  | write (reason : String)
  | rename (target reason : String)
  | extension (error : ExtensionError)
deriving DecidableEq, Repr

def FileError.message : FileError → String
  | read reason => "failed to read: " ++ reason
  | parse error => "parse error at " ++ error.text
  | write reason => "failed to write: " ++ reason
  | rename target reason => "converted, but failed to rename to '" ++ target ++ "': " ++ reason
  | extension error => error.message

structure FileFailure where
  path : String
  error : FileError
deriving DecidableEq, Repr

/-- What the system refuses to do, path by path, and its reasons. -/
structure Refusals where
  write : String → Option FileFault := fun _ => none
  rename : String → Option FileFault := fun _ => none

/-- A file that is written and waits for its new name. -/
structure WrittenFile where
  path : String
  target : String
  warnings : List Diagnostic
deriving DecidableEq, Repr

/-- What became of the files of a directory. -/
structure Report where
  discovered : Nat
  /-- Files that are converted, with their old and new paths. -/
  converted : List (String × String) := []
  failed : List FileFailure := []
  /-- Files that are converted and keep their old names. -/
  renameFailed : List FileFailure := []
  warnings : List Diagnostic := []
deriving DecidableEq, Repr

namespace Report

/-- Files were found, and none of them is converted. -/
def isTotalFailure (report : Report) : Bool :=
  0 < report.discovered && report.failed.length == report.discovered

def writtenCount (report : Report) : Nat := report.converted.length + report.renameFailed.length

end Report

/-- The converted text of the file at a path, and what waits for it. -/
def convertFile (options : Erasure.Options) (tree : FileTree) (path : String) :
    Except FileError (String × WrittenFile) := do
  let target ← (Path.target path).mapError .extension
  let bytes ← (tree.read path).mapError fun fault => .read fault.message
  let text ← (Text.decode bytes).mapError fun fault => .read fault.message
  let converted ← (convert path text options).mapError .parse
  return (converted.code, { path, target, warnings := converted.warnings })

def writeConverted (refusals : Refusals) (options : Erasure.Options) (tree : FileTree)
    (path : String) : Except FileError (FileTree × WrittenFile) := do
  let (code, file) ← convertFile options tree path
  let written : Except FileFault FileTree := match refusals.write path with
    | some fault => .error fault
    | none => tree.write path code.toUTF8
  match written with
  | .ok tree => .ok (tree, file)
  | .error fault => .error (.write fault.message)

/-- Gives a written file its new name, if that is free. -/
def renameWritten (refusals : Refusals) (tree : FileTree) (file : WrittenFile) :
    Except FileError FileTree :=
  let renamed : Except FileFault FileTree :=
    if tree.has file.target then .error (.refused "target already exists")
    else match refusals.rename file.path with
      | some fault => .error fault
      | none => tree.rename file.path file.target
  renamed.mapError fun fault => .rename file.target fault.message

/-- The first half of a conversion. -/
structure Writing where
  tree : FileTree
  written : List WrittenFile := []
  failed : List FileFailure := []

def Writing.step (refusals : Refusals) (options : Erasure.Options) (w : Writing) (path : String) :
    Writing :=
  match writeConverted refusals options w.tree path with
  | .ok (tree, file) => { w with tree, written := w.written ++ [file] }
  | .error error => { w with failed := w.failed ++ [⟨path, error⟩] }

/-- The second half of a conversion. -/
structure Renaming where
  tree : FileTree
  report : Report

def Renaming.step (refusals : Refusals) (r : Renaming) (file : WrittenFile) : Renaming :=
  let report := { r.report with warnings := r.report.warnings ++ file.warnings }
  match renameWritten refusals r.tree file with
  | .ok tree =>
    { tree, report := { report with converted := report.converted ++ [(file.path, file.target)] } }
  | .error error =>
    { r with
      report := { report with renameFailed := report.renameFailed ++ [⟨file.path, error⟩] } }

def convertPaths (refusals : Refusals) (options : Erasure.Options) (paths : List String)
    (tree : FileTree) : Report × FileTree :=
  let w : Writing := paths.foldl (Writing.step refusals options) { tree }
  let start : Renaming :=
    { tree := w.tree, report := { discovered := paths.length, failed := w.failed } }
  let r := w.written.foldl (Renaming.step refusals) start
  (r.report, r.tree)

def convertDirectory (refusals : Refusals) (config : Config) (tree : FileTree) :
    Except ConvertError (Report × FileTree) := do
  if !tree.has config.root then
    .error (.missingRoot config.root)
  else if !tree.hasDirectory config.root then
    .error (.notADirectory config.root)
  else
    return convertPaths refusals config.options (← discover config tree) tree

end Untype
