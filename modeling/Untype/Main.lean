-- The program. The paths of the files to look at come in on standard input,
-- a path a line, as in `find project -type f | untype --no-branch project`.
-- No other program is started, so a branch has to be there already, and
-- packages stay.
import Untype.Command.Summary
import Untype.Command.Usage
import Untype.Files.Changes

namespace Untype

/-- Other programs, none of which can be started. -/
def absentPrograms : Command.Collaborators where
  currentBranch := .error "failed to run git"
  createBranch _ := .error "failed to run git"
  removePackages _ := .error "failed to run npm"

def loadFiles (paths : List String) : IO FileTree := do
  let files ← paths.mapM fun (path : String) => do return (path, some (← IO.FS.readBinFile path))
  return .directory "" (FileTree.ofFiles files)

def applyChange : FileChange → IO Unit
  | .write path content => IO.FS.writeBinFile path content
  | .remove path => IO.FS.removeFile path

def hasColor : Command.ColorChoice → IO Bool
  | .always => return true
  | .never => return false
  | .auto => do (← IO.getStdout).isTty

/-- Runs a command on the files whose paths come in, and answers with an exit code. -/
def runCommand (arguments : Command.Arguments) : IO UInt32 := do
  let lines ← (← IO.getStdin).lines
  let before ← loadFiles (lines.toList.filter (!·.isEmpty))
  let outcome := Command.run arguments absentPrograms {} before
  (before.changes outcome.tree).forM applyChange
  match outcome.result with
  | .error error =>
    IO.eprintln ("Error: " ++ error.message)
    return 1
  | .ok summary =>
    IO.print (summary.text (← hasColor arguments.color) arguments.directory)
    return UInt32.ofNat summary.exitCode

end Untype

def main (arguments : List String) : IO UInt32 := do
  match Untype.Command.Arguments.ofList arguments with
  | .ok arguments => Untype.runCommand arguments
  | .error error =>
    if error.exitCode == 0 then
      IO.println error.message
    else
      IO.eprintln (error.message ++ "\n\n" ++ Untype.Command.usageLine)
    return UInt32.ofNat error.exitCode
