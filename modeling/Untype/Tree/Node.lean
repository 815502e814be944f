-- Syntax trees that keep every character: leaves are tokens with the trivia
-- in front of them.
import Untype.Text.Slice
import Untype.Token.Kind
import Untype.Tree.Kind

namespace Untype

/-- The bytes of a node. Trivia lies between `pos` and `start`, the rest between `start` and
`stop`. -/
structure Span where
  pos : Nat
  start : Nat
  stop : Nat
deriving DecidableEq, Repr

structure Token where
  kind : TokenKind
  span : Span
  /-- Printed piece by piece and not as the source has it. -/
  dirty : Bool := false
  /-- Takes the place of the trivia in the source. -/
  trivia : Option String := none
deriving DecidableEq, Repr

/-- A piece of text that the source does not have. It stands at the offset `anchor`. -/
structure Inserted where
  anchor : Nat
  text : String
  dirty : Bool := false
  /-- Stands for syntax that was put into plainer words. -/
  lowered : Bool := false
  trivia : Option String := none
deriving DecidableEq, Repr

structure Marks where
  /-- Printed child by child and not as the source has it. -/
  dirty : Bool := false
  /-- Put into plainer words. -/
  lowered : Bool := false
deriving DecidableEq, Repr

inductive Node where
  | leaf (token : Token)
  | inserted (piece : Inserted)
  | branch (kind : NodeKind) (span : Span) (marks : Marks) (children : List Node)

inductive Label where
  | token (kind : TokenKind)
  | inserted
  | branch (kind : NodeKind)
deriving DecidableEq, Repr

/-- The name of a label in listings: a token has an apostrophe in front. -/
def Label.name : Label → String
  | .token kind => "'" ++ kind.name
  | .inserted => "SyntheticText"
  | .branch kind => kind.name

/-- A condition on productions. No leaf satisfies it. -/
def Label.satisfies (p : NodeKind → Bool) : Label → Bool
  | .branch kind => p kind
  | _ => false

namespace Node

/-! ## Parts -/

def label : Node → Label
  | leaf token => .token token.kind
  | inserted _ => .inserted
  | branch kind _ _ _ => .branch kind

def span : Node → Span
  | leaf token => token.span
  | inserted piece => ⟨piece.anchor, piece.anchor, piece.anchor⟩
  | branch _ span _ _ => span

def children : Node → List Node
  | branch _ _ _ children => children
  | _ => []

def isDirty : Node → Bool
  | leaf token => token.dirty
  | inserted piece => piece.dirty
  | branch _ _ marks _ => marks.dirty

def isLowered : Node → Bool
  | leaf _ => false
  | inserted piece => piece.lowered
  | branch _ _ marks _ => marks.lowered

def kind? : Node → Option NodeKind
  | branch kind _ _ _ => some kind
  | _ => none

def token? : Node → Option TokenKind
  | leaf token => some token.kind
  | _ => none

def isKind (kind : NodeKind) (node : Node) : Bool := node.kind? == some kind

def isToken (kind : TokenKind) (node : Node) : Bool := node.token? == some kind

def spanOf (nodes : List Node) : Span :=
  match nodes.head?, nodes.getLast? with
  | some first, some last => ⟨first.span.pos, first.span.start, last.span.stop⟩
  | _, _ => ⟨0, 0, 0⟩

def group (kind : NodeKind) (children : List Node) : Node :=
  branch kind (spanOf children) {} children

/-! ## Walks -/

mutual

/-- The first leaf. A branch without children is its own. -/
def firstLeaf : Node → Node
  | branch kind span marks children => firstLeafOf (branch kind span marks children) children
  | node => node

/-- The first leaf of the first node, `fallback` if there is no node. -/
def firstLeafOf (fallback : Node) : List Node → Node
  | [] => fallback
  | child :: _ => firstLeaf child

end

mutual

/-- The last leaf. A branch without children is its own. -/
def lastLeaf : Node → Node
  | branch kind span marks children => lastLeafOf (branch kind span marks children) children
  | node => node

/-- The last leaf of the last node, `fallback` if there is no node. -/
def lastLeafOf (fallback : Node) : List Node → Node
  | [] => fallback
  | [child] => lastLeaf child
  | _ :: rest => lastLeafOf fallback rest

end

mutual

def leaves : Node → List Node
  | branch _ _ _ children => leavesOf children
  | node => [node]

def leavesOf : List Node → List Node
  | [] => []
  | child :: rest => leaves child ++ leavesOf rest

end

mutual

/-- The node and all below it, each before its children. -/
def descendants : Node → List Node
  | branch kind span marks children => branch kind span marks children :: descendantsOf children
  | node => [node]

def descendantsOf : List Node → List Node
  | [] => []
  | child :: rest => descendants child ++ descendantsOf rest

end

mutual

/-- The node and all below it with their depths, each before its children. -/
def rows (depth : Nat) : Node → List (Nat × Node)
  | branch kind span marks children =>
    (depth, branch kind span marks children) :: rowsOf (depth + 1) children
  | node => [(depth, node)]

def rowsOf (depth : Nat) : List Node → List (Nat × Node)
  | [] => []
  | child :: rest => rows depth child ++ rowsOf depth rest

end

mutual

def size : Node → Nat
  | branch _ _ _ children => totalSize children + 1
  | _ => 1

def totalSize : List Node → Nat
  | [] => 0
  | child :: rest => size child + totalSize rest

end

/-! ## Questions -/

def countLabel (label : Label) (node : Node) : Nat :=
  (node.descendants.filter (·.label == label)).length

def labels (node : Node) : List Label := (node.descendants.map label).eraseDups

def child? (kind : NodeKind) (node : Node) : Option Node := node.children.find? (isKind kind)

def hasToken (kind : TokenKind) (node : Node) : Bool := node.children.any (isToken kind)

/-- The source text of the node, without the trivia in front. -/
def text (source : String) (node : Node) : String :=
  Text.slice source node.span.start node.span.stop

/-- The text of a name, private ones included. -/
def name? (source : String) (node : Node) : Option String :=
  match node.token? with
  | some .identifier => some (node.text source)
  | some .privateIdentifier => some (node.text source)
  | _ => none

/-- The trivia in front of a leaf, as it will be printed. -/
def leadingTrivia (source : String) : Node → String
  | leaf token => token.trivia.getD (Text.slice source token.span.pos token.span.start)
  | inserted piece => piece.trivia.getD ""
  | branch _ span _ _ => Text.slice source span.pos span.start

/-! ## Marks -/

def markDirty : Node → Node
  | leaf token => leaf { token with dirty := true }
  | inserted piece => inserted { piece with dirty := true }
  | branch kind span marks children => branch kind span { marks with dirty := true } children

/-- The leaf with other trivia in front. A branch stays as it is. -/
def setTrivia (trivia : String) : Node → Node
  | leaf token => leaf { token with trivia := some trivia }
  | inserted piece => inserted { piece with trivia := some trivia }
  | branch kind span marks children => branch kind span marks children

mutual

def markAllDirty : Node → Node
  | branch kind span marks children =>
    branch kind span { marks with dirty := true } (markAllDirtyOf children)
  | node => node.markDirty

def markAllDirtyOf : List Node → List Node
  | [] => []
  | child :: rest => markAllDirty child :: markAllDirtyOf rest

end

mutual

/-- Sets the trivia of the nodes at some positions, counted from `position` in the order of
`descendants`. -/
def setTriviaAt (overrides : List (Nat × String)) (position : Nat) : Node → Node
  | branch kind span marks children =>
    branch kind span marks (setTriviaAtOf overrides (position + 1) children)
  | node =>
    match overrides.lookup position with
    | some trivia => node.setTrivia trivia
    | none => node

def setTriviaAtOf (overrides : List (Nat × String)) (position : Nat) : List Node → List Node
  | [] => []
  | child :: rest =>
    setTriviaAt overrides position child ::
      setTriviaAtOf overrides (position + size child) rest

end

end Node

end Untype
