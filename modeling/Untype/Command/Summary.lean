-- The summary of a run as text.
import Untype.Command.Run

namespace Untype.Command

inductive Style where
  | bold
  | boldYellow
  | boldGreen
  | boldRed
  | cyan
deriving DecidableEq, Repr

def Style.sequence : Style → String
  | bold => "\x1b[1m"
  | boldYellow => "\x1b[1;33m"
  | boldGreen => "\x1b[1;32m"
  | boldRed => "\x1b[1;31m"
  | cyan => "\x1b[36m"

def resetSequence : String := "\x1b[0m"

def insertAfter (word piece : List Char) : Nat → List Char → List Char
  | 0, cs => cs
  | _ + 1, [] => []
  | fuel + 1, c :: rest =>
    if word.isPrefixOf (c :: rest) then
      word ++ piece ++ insertAfter word piece fuel ((c :: rest).drop word.length)
    else
      c :: insertAfter word piece fuel rest

/-- The text in a style, if there is to be color. Where the text turns styles off, the style is
turned on again. -/
def paint (color : Bool) (style : Style) (text : String) : String :=
  if color then
    let inner := insertAfter resetSequence.toList style.sequence.toList text.length text.toList
    style.sequence ++ String.ofList inner ++ resetSequence
  else
    text

def countOf (n : Nat) (noun : String) : String :=
  toString n ++ " " ++ noun ++ (if n == 1 then "" else "s")

def warningLabel (color : Bool) : String := paint color .boldYellow "warning"

def warningLine (color : Bool) (root : String) (warning : Diagnostic) : String :=
  paint color .cyan (Path.relativeTo root warning.file) ++ " (offset " ++ toString warning.start ++
    "): " ++ warningLabel color ++ " TS" ++ toString warning.problem.code ++ ": " ++
    warning.problem.message

def failureLines (color : Bool) (root title : String) (failures : List FileFailure) :
    List String :=
  if failures.isEmpty then
    []
  else
    (title ++ " " ++ countOf failures.length "file" ++ ":") ::
      failures.map fun failure =>
        "  " ++ paint color .cyan (Path.relativeTo root failure.path) ++ ": " ++
          failure.error.message

def branchLines (color : Bool) : Option BranchAction → List String
  | some (.created name) => ["Created branch " ++ paint color .bold name]
  | some (.kept name) => ["Converting on branch " ++ paint color .bold name]
  | none => []

/-- The last line, with a label that shows how the run went. -/
def totalLine (color : Bool) (report : Report) : String :=
  let style : Style :=
    if report.isTotalFailure then .boldRed
    else if report.failed.isEmpty && report.renameFailed.isEmpty then .boldGreen
    else .boldYellow
  paint color style "Done:" ++ " " ++ countOf report.converted.length "file" ++ " converted, " ++
    toString report.failed.length ++ " failed, " ++ toString report.renameFailed.length ++
    " not renamed, " ++ countOf report.warnings.length "warning"

/-- The lines of a summary. Paths are as seen from `root`. -/
def Summary.lines (summary : Summary) (color : Bool) (root : String) : List String :=
  let report := summary.report
  branchLines color summary.branch ++
  report.warnings.map (warningLine color root) ++
  failureLines color root "Failed to convert" report.failed ++
  failureLines color root "Converted but not renamed" report.renameFailed ++
  (if summary.removedPackages.isEmpty then []
    else ["Removed packages: " ++ ", ".intercalate summary.removedPackages]) ++
  (if summary.removedConfig then ["Removed tsconfig.json"] else []) ++
  summary.problems.map (fun problem => warningLabel color ++ ": " ++ problem) ++
  [totalLine color report]

def Summary.text (summary : Summary) (color : Bool) (root : String) : String :=
  String.join ((summary.lines color root).map (· ++ "\n"))

end Untype.Command
