-- Nodes by their position in the order of `descendants`.
import Untype.Tree.Node

namespace Untype.Node

def at? (position : Nat) (root : Node) : Option Node := root.descendants[position]?

/-- The positions of nodes side by side, the first of which has the given one. -/
def positionsFrom (position : Nat) : List Node → List Nat
  | [] => []
  | node :: rest => position :: positionsFrom (position + node.size) rest

def childPositions (position : Nat) (node : Node) : List Nat :=
  positionsFrom (position + 1) node.children

mutual

/-- How many levels the first leaf lies below the node. -/
def firstLeafDepth : Node → Nat
  | branch _ _ _ children => firstLeafDepthOf children
  | _ => 0

/-- The same, counted from the parent of the nodes. -/
def firstLeafDepthOf : List Node → Nat
  | [] => 0
  | child :: _ => firstLeafDepth child + 1

end

def firstLeafPosition (position : Nat) (node : Node) : Nat := position + node.firstLeafDepth

/-- The position of the last leaf of the node at a position: nothing below it comes later. -/
def lastLeafPosition (position : Nat) (node : Node) : Nat := position + node.size - 1

def childPosition? (kind : NodeKind) (position : Nat) (node : Node) : Option Nat :=
  ((node.childPositions position).zip node.children).findSome? fun (p, child) =>
    if child.isKind kind then some p else none

end Untype.Node
