-- Paths as texts: names separated by slashes.
import Untype.Text.Chars
import Untype.Text.Slice

namespace Untype.Path

/-! ## Components -/

inductive Component where
  | root
  | current
  | parent
  | normal (name : String)
deriving DecidableEq, Repr

/-- The texts between slashes. -/
def pieces : List Char → List (List Char)
  | [] => [[]]
  | c :: rest =>
    if c == '/' then
      [] :: pieces rest
    else
      match pieces rest with
      | [] => [[c]]
      | piece :: others => (c :: piece) :: others

/-- The component of a piece that is neither empty nor a dot. -/
def componentOf? (piece : List Char) : Option Component :=
  match piece with
  | [] => none
  | ['.'] => none
  | ['.', '.'] => some .parent
  | name => some (.normal (String.ofList name))

/-- The parts of a path. Empty pieces and dots count for nothing, except a dot in front. -/
def components (path : String) : List Component :=
  let all := pieces path.toList
  let first : List Component := match all with
    | [] :: _ :: _ => [.root]
    | ['.'] :: _ => [.current]
    | _ => []
  first ++ all.filterMap componentOf?

/-! ## The last name -/

/-- A reversed path without the slashes and dots behind its last name. -/
def trimTail : List Char → List Char
  | '/' :: rest => trimTail rest
  | '.' :: '/' :: rest => trimTail rest
  | rest => rest

/-- The last name and what stands in front of it, if the path ends in a name. -/
def splitName? (path : String) : Option (String × String) :=
  let trimmed := trimTail path.toList.reverse
  let name := (trimmed.takeWhile (· != '/')).reverse
  let front := (trimmed.dropWhile (· != '/')).reverse
  if name == [] || name == ['.'] || name == ['.', '.'] then none
  else some (String.ofList front, String.ofList name)

def fileName? (path : String) : Option String := (splitName? path).map (·.2)

/-- A name as its stem and its extension. The last dot divides them, unless it is in
front. -/
def splitExtension (name : String) : String × Option String :=
  let reversed := name.toList.reverse
  let extension := (reversed.takeWhile (· != '.')).reverse
  match reversed.dropWhile (· != '.') with
  | '.' :: stem =>
    if stem.isEmpty then (name, none)
    else (String.ofList stem.reverse, some (String.ofList extension))
  | _ => (name, none)

def extension? (path : String) : Option String :=
  (fileName? path).bind fun name => (splitExtension name).2

/-- Sets the extension of the last name. What stands behind the name goes. -/
def setExtension (extension path : String) : String :=
  match splitName? path with
  | some (front, name) => front ++ (splitExtension name).1 ++ "." ++ extension
  | none => path

def dropLastBytes (count : Nat) (text : String) : String :=
  Text.slice text 0 (text.utf8ByteSize - count)

/-- The path with another extension. As many bytes as the old extension has go from the end
of the path before the new one is set. -/
def withExtension (extension path : String) : String :=
  match extension? path with
  | some old => setExtension extension (dropLastBytes old.utf8ByteSize path)
  | none => setExtension extension path

/-! ## Joining and comparing -/

def join (directory name : String) : String :=
  if directory.isEmpty || directory.toList.getLast? == some '/' then directory ++ name
  else directory ++ "/" ++ name

def Component.rank : Component → Nat
  | .root => 0
  | .current => 1
  | .parent => 2
  | .normal _ => 3

/-- Names are compared byte by byte, which is the order of their characters. -/
def Component.le : Component → Component → Bool
  | .normal a, .normal b => a ≤ b
  | a, b => a.rank ≤ b.rank

/-- Lists of components in the order of their first difference. -/
def leComponents : List Component → List Component → Bool
  | [], _ => true
  | _ :: _, [] => false
  | a :: as, b :: bs => if a = b then leComponents as bs else a.le b

def le (a b : String) : Bool := leComponents (components a) (components b)

def afterPrefix? : List Component → List Component → Option (List Component)
  | [], rest => some rest
  | _ :: _, [] => none
  | p :: ps, c :: cs => if p = c then afterPrefix? ps cs else none

def Component.text : Component → String
  | .root => "/"
  | .current => "."
  | .parent => ".."
  | .normal name => name

def ofComponents (parts : List Component) : String :=
  parts.foldl (fun path part => join path part.text) ""

/-- The path as seen from a directory. One that does not lie there stays as it is. -/
def relativeTo (directory path : String) : String :=
  match afterPrefix? (components directory) (components path) with
  | some rest => ofComponents rest
  | none => path

end Untype.Path
