-- What the program says about itself and about arguments that are no command.
import Untype.Command.Arguments

namespace Untype.Command

def programName : String := "untype"

def programVersion : String := "0.1.0"

def usageLine : String := "Usage: " ++ programName ++ " [OPTIONS] <DIRECTORY>"

def optionLines : List (String × String) := [
  ("    --no-packages", "Skip removing TypeScript packages from package.json"),
  ("    --no-config", "Skip removing tsconfig.json"),
  ("    --no-branch", "Convert on the current branch instead of creating one"),
  ("    --exclude <GLOB>", "Additional directories to skip (glob, matched against the " ++
    "directory name or its path relative to the project)"),
  ("-j, --jobs <N>", "Number of worker threads"),
  ("    --include-declarations", "Also convert .d.ts files"),
  ("    --keep-unused-type-imports", "Keep imports that are only referenced from types"),
  ("    --keep-uninitialized-fields", "Keep class fields that have a type but no initializer"),
  ("    --color <COLOR>", "When to color the summary [default: auto] " ++
    "[possible values: auto, always, never]"),
  ("-h, --help", "Print help"),
  ("-V, --version", "Print version")]

/-- The help, with the meanings of the arguments in a column. -/
def helpText : String :=
  let width := optionLines.foldl (fun width (names, _) => max width names.length) 0
  let line : String × String → String := fun (names, meaning) =>
    "  " ++ names.pushn ' ' (width + 2 - names.length) ++ meaning
  "\n".intercalate ([
    "Convert a TypeScript project to JavaScript in place",
    "",
    usageLine,
    "",
    "Arguments:",
    "  <DIRECTORY>  Project directory to convert",
    "",
    "Options:"] ++ optionLines.map line)

/-- What the program prints instead of a run, if the arguments are no command. -/
def UsageError.message : UsageError → String
  | unknownArgument => "error: unexpected argument found"
  | invalidValue => "error: a value is missing or not one of those that are possible"
  | notANumber => "error: a value is not a number"
  | valueForSwitch => "error: a value was given to an argument that has none"
  | repeated => "error: an argument cannot be used multiple times"
  | missingDirectory => "error: the following required arguments were not provided:\n  <DIRECTORY>"
  | help => helpText
  | version => programName ++ " " ++ programVersion

/-- To ask for help or the version is no fault. -/
def UsageError.exitCode : UsageError → Nat
  | help => 0
  | version => 0
  | _ => 2

end Untype.Command
