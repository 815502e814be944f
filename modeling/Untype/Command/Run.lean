-- A whole run: the branch, the conversion, and what is tidied up after it.
import Untype.Command.Arguments
import Untype.Command.Branch
import Untype.Command.Manifest
import Untype.Files.Report

namespace Untype.Command

/-- The answers of other programs that a run asks. An error is in their words. That these programs
leave the files of the run alone is an assumption, which the type of an answer makes. -/
structure Collaborators where
  currentBranch : Except String String
  createBranch : String → Except String Unit
  removePackages : List String → Except String Unit

inductive Call where
  | currentBranch
  | createBranch (name : String)
  | packages
  | removePackages (names : List String)
deriving DecidableEq, Repr

inductive RunError where
  | conversion (error : ConvertError)
  | currentBranch (cause : String)
  | createBranch (cause : String)
deriving DecidableEq, Repr

def RunError.message : RunError → String
  | conversion error => ": ".intercalate (error.message :: error.causes)
  | currentBranch cause => "failed to read the current branch: " ++ cause
  | createBranch cause => "failed to create branch '" ++ conversionBranch ++ "': " ++ cause

structure Summary where
  /-- There is none if the branch was not to be looked at. -/
  branch : Option BranchAction
  report : Report
  removedPackages : List String := []
  removedConfig : Bool := false
  /-- What failed and did not stop the run. -/
  problems : List String := []
deriving DecidableEq, Repr

def Summary.exitCode (summary : Summary) : Nat := if summary.report.isTotalFailure then 1 else 0

/-- How a run ended: the files after it, and what was asked for. -/
structure Outcome where
  result : Except RunError Summary
  tree : FileTree
  calls : List Call

def ensureBranch (c : Collaborators) : Except RunError BranchAction × List Call :=
  match c.currentBranch with
  | .error cause => (.error (.currentBranch cause), [.currentBranch])
  | .ok current =>
    if isConversionBranch current then
      (.ok (.kept current), [.currentBranch])
    else
      let calls : List Call := [.currentBranch, .createBranch conversionBranch]
      match c.createBranch conversionBranch with
      | .ok () => (.ok (.created conversionBranch), calls)
      | .error cause => (.error (.createBranch cause), calls)

def removeTypePackages (c : Collaborators) (tree : FileTree) (directory : String) :
    Except String (List String) × List Call :=
  match packagesOf tree directory with
  | .error cause => (.error cause, [.packages])
  | .ok names =>
    match names.filter isTypePackage with
    | [] => (.ok [], [.packages])
    | targets =>
      let calls : List Call := [.packages, .removePackages targets]
      match c.removePackages targets with
      | .ok () => (.ok targets, calls)
      | .error cause => (.error cause, calls)

/-- The packages go, unless the command says otherwise. -/
def tidyPackages (a : Arguments) (c : Collaborators) (tree : FileTree) (summary : Summary) :
    Summary × List Call :=
  if a.has .noPackages then
    (summary, [])
  else
    match removeTypePackages c tree a.directory with
    | (.ok removed, calls) => ({ summary with removedPackages := removed }, calls)
    | (.error cause, calls) =>
      let problem := "failed to remove TypeScript packages: " ++ cause
      ({ summary with problems := summary.problems ++ [problem] }, calls)

/-- The file that sets up the types goes, unless the command says otherwise. -/
def tidyConfig (a : Arguments) (tree : FileTree) (summary : Summary) : Summary × FileTree :=
  if a.has .noConfig then
    (summary, tree)
  else
    match removeTypeConfig tree a.directory with
    | .ok (removed, tree) => ({ summary with removedConfig := removed }, tree)
    | .error fault =>
      let problem := "failed to remove tsconfig.json: " ++ fault.message
      ({ summary with problems := summary.problems ++ [problem] }, tree)

def branchFor (a : Arguments) (c : Collaborators) :
    Except RunError (Option BranchAction) × List Call :=
  if a.has .noBranch then
    (.ok none, [])
  else
    match ensureBranch c with
    | (.ok action, calls) => (.ok (some action), calls)
    | (.error error, calls) => (.error error, calls)

/-- The conversion, once the branch is settled, and what comes after it. Nothing is tidied up
if no file could be converted. -/
def convertAndTidy (a : Arguments) (c : Collaborators) (refusals : Refusals)
    (branch : Option BranchAction) (tree : FileTree) : Outcome :=
  match convertDirectory refusals a.config tree with
  | .error error => ⟨.error (.conversion error), tree, []⟩
  | .ok (report, tree) =>
    let summary : Summary := { branch, report }
    if report.isTotalFailure then
      ⟨.ok summary, tree, []⟩
    else
      let (summary, calls) := tidyPackages a c tree summary
      let (summary, tree) := tidyConfig a tree summary
      ⟨.ok summary, tree, calls⟩

def run (a : Arguments) (c : Collaborators) (refusals : Refusals) (tree : FileTree) : Outcome :=
  if !tree.has a.directory then
    ⟨.error (.conversion (.missingRoot a.directory)), tree, []⟩
  else if !tree.hasDirectory a.directory then
    ⟨.error (.conversion (.notADirectory a.directory)), tree, []⟩
  else
    match branchFor a c with
    | (.error error, calls) => ⟨.error error, tree, calls⟩
    | (.ok branch, calls) =>
      let outcome := convertAndTidy a c refusals branch tree
      { outcome with calls := calls ++ outcome.calls }

end Untype.Command
