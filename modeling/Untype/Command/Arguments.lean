-- The arguments of the command line.
import Untype.Files.Discovery
import Untype.Number.Literal

namespace Untype.Command

inductive ColorChoice where
  | auto
  | always
  | never
deriving DecidableEq, Repr

/-- Arguments that are given or not. -/
inductive Switch where
  | noPackages
  | noConfig
  | noBranch
  | includeDeclarations
  | keepTypeImports
  | keepBareFields
deriving DecidableEq, Repr

/-- Arguments that have a value. -/
inductive Slot where
  | directory
  | exclude
  | jobs
  | color
deriving DecidableEq, Repr

inductive Flag where
  | switch (switch : Switch)
  | slot (slot : Slot)
  | help
  | version
deriving DecidableEq, Repr

/-- Why arguments are not a command. Help and version end the reading as well. -/
inductive UsageError where
  | unknownArgument
  /-- A value is missing, or not one of those that are possible. -/
  | invalidValue
  | notANumber
  | valueForSwitch
  | repeated
  | missingDirectory
  | help
  | version
deriving DecidableEq, Repr

structure Arguments where
  directory : String
  switches : List Switch := []
  exclude : List String := []
  jobs : Option Nat := none
  color : ColorChoice := .auto
deriving DecidableEq, Repr

def longFlags : List (String × Flag) := [
  ("no-packages", .switch .noPackages),
  ("no-config", .switch .noConfig),
  ("no-branch", .switch .noBranch),
  ("exclude", .slot .exclude),
  ("jobs", .slot .jobs),
  ("include-declarations", .switch .includeDeclarations),
  ("keep-unused-type-imports", .switch .keepTypeImports),
  ("keep-uninitialized-fields", .switch .keepBareFields),
  ("color", .slot .color),
  ("help", .help),
  ("version", .version)]

def shortFlags : List (Char × Flag) := [('j', .slot .jobs), ('h', .help), ('V', .version)]

def colorChoices : List (String × ColorChoice) :=
  [("auto", .auto), ("always", .always), ("never", .never)]

/-! ## Reading -/

structure Reading where
  directory : Option String := none
  /-- The directory was read, though it may be pending. -/
  hasDirectory : Bool := false
  switches : List Switch := []
  exclude : List String := []
  jobs : Option Nat := none
  color : Option ColorChoice := none
  /-- A value that is not looked at yet, or one that is waited for. -/
  pending : Option (Slot × Option String) := none
  /-- After two hyphens, what follows has no flags. -/
  isTrailing : Bool := false
deriving DecidableEq, Repr

namespace Reading

def store (r : Reading) (slot : Slot) (value : String) : Except UsageError Reading :=
  match slot with
  | .directory =>
    if value.isEmpty then .error .invalidValue else .ok { r with directory := some value }
  | .exclude => .ok { r with exclude := r.exclude ++ [value] }
  | .jobs =>
    if r.jobs.isSome then .error .repeated
    else match Number.readWhole 10 0x10000000000000000 value.toList with
      | some jobs => .ok { r with jobs := some jobs }
      | none => .error .notANumber
  | .color =>
    if r.color.isSome then .error .repeated
    else match colorChoices.lookup value with
      | some color => .ok { r with color := some color }
      | none => .error .invalidValue

/-- Looks at the pending value. None may be waited for. -/
def settle (r : Reading) : Except UsageError Reading :=
  match r.pending with
  | none => .ok r
  | some (_, none) => .error .invalidValue
  | some (slot, some value) => { r with pending := none }.store slot value

/-- A flag without a value. -/
def flag (r : Reading) (flag : Flag) : Except UsageError Reading := do
  let r ← r.settle
  match flag with
  | .help => .error .help
  | .version => .error .version
  | .slot slot => .ok { r with pending := some (slot, none) }
  | .switch switch =>
    if r.switches.contains switch then .error .repeated
    else .ok { r with switches := r.switches ++ [switch] }

def flagWith (r : Reading) (flag : Flag) (value : String) : Except UsageError Reading :=
  match flag with
  | .slot slot => do (← r.settle).store slot value
  | _ => .error .valueForSwitch

/-- An argument without a flag. There is one, the directory. -/
def positional (r : Reading) (value : String) : Except UsageError Reading :=
  if r.hasDirectory then
    .error .unknownArgument
  else do
    let r ← r.settle
    return { r with hasDirectory := true, pending := some (.directory, some value) }

/-- An argument after two hyphens: a name, and perhaps a value after an equals sign. -/
def long (r : Reading) (cs : List Char) : Except UsageError Reading :=
  match longFlags.lookup (String.ofList (cs.takeWhile (· != '='))) with
  | none => .error .unknownArgument
  | some flag =>
    match cs.dropWhile (· != '=') with
    | [] => r.flag flag
    | _ :: value => r.flagWith flag (String.ofList value)

/-- An argument after one hyphen: a letter, and for a slot perhaps a value after it. -/
def short (r : Reading) (letter : Char) (rest : List Char) : Except UsageError Reading :=
  match shortFlags.lookup letter with
  | none => .error .unknownArgument
  | some (.slot slot) =>
    match rest with
    | [] => r.flag (.slot slot)
    | '=' :: value => r.flagWith (.slot slot) (String.ofList value)
    | value => r.flagWith (.slot slot) (String.ofList value)
  | some flag => r.flag flag

/-- An argument that is no flag: the value that is waited for, or the directory. -/
def value (r : Reading) (argument : String) : Except UsageError Reading :=
  match r.pending with
  | some (slot, none) => .ok { r with pending := some (slot, some argument) }
  | _ => r.positional argument

def step (r : Reading) (argument : String) : Except UsageError Reading :=
  if r.isTrailing then
    r.positional argument
  else
    match argument.toList with
    | ['-', '-'] => .ok { r with isTrailing := true }
    | '-' :: '-' :: rest => r.long rest
    | '-' :: letter :: rest => r.short letter rest
    | _ => r.value argument

def finish (r : Reading) : Except UsageError Arguments := do
  let r ← r.settle
  match r.directory with
  | none => .error .missingDirectory
  | some directory =>
    return { directory, switches := r.switches, exclude := r.exclude, jobs := r.jobs,
             color := r.color.getD .auto }

end Reading

namespace Arguments

def ofList (arguments : List String) : Except UsageError Arguments := do
  (← arguments.foldlM Reading.step {}).finish

def has (a : Arguments) (switch : Switch) : Bool := a.switches.contains switch

def config (a : Arguments) : Config :=
  let default : Config := { root := a.directory }
  { default with
    exclude := default.exclude ++ a.exclude
    jobs := a.jobs
    skipDeclarations := !a.has .includeDeclarations
    options :=
      { elideImports := !a.has .keepTypeImports, keepBareFields := a.has .keepBareFields } }

end Arguments

end Untype.Command
