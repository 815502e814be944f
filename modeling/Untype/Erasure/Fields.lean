-- Constructor parameters that declare fields. Without their modifiers the
-- fields have to be assigned in the body of the constructor.
import Untype.Text.Comments
import Untype.Text.Indent
import Untype.Tree.Node

namespace Untype.Erasure

def declaresField (modifier : TokenKind) : Bool :=
  modifier.isTypeModifier && modifier != .abstractKeyword && modifier != .declareKeyword

/-- The names of the parameters that are fields, given the children of the constructor. -/
def fieldNames (source : String) (constructor : List Node) : List String :=
  match constructor.find? (Node.isKind .parameterList) with
  | none => []
  | some list =>
    let parameters := list.children.filter fun parameter =>
      parameter.isKind .parameter &&
        parameter.children.any fun child => child.token?.any declaresField
    parameters.filterMap fun parameter => parameter.children.findSome? (Node.name? source)

/-- A call of the constructor of the base class, as a statement. -/
def isSuperCall (statement : Node) : Bool :=
  statement.isKind .expressionStatement &&
    statement.children.head?.any fun call =>
      call.isKind .callExpression && call.children.head?.any (Node.isToken .superKeyword)

/-- What is added to the body of a constructor. -/
structure FieldPlan where
  /-- The assignments come after the child of the body with this number. -/
  position : Nat
  assignments : List Inserted
  /-- New trivia for the closing brace. -/
  closing : Option String
deriving DecidableEq, Repr

/-- The assignments of the fields: on lines of their own, at the front of the body or after the
call of the base class. -/
def fieldPlan (source unit : String) (start : Nat) (names : List String) (body : Node) :
    FieldPlan :=
  let base := Text.lineIndent source start
  let statements := body.children.filter fun child => child.token?.isNone
  let indent := (statements.head?.bind fun first =>
    Text.trailingIndent? (first.firstLeaf.leadingTrivia source)).getD (base ++ unit)
  { position := (body.children.findIdx? isSuperCall).getD 0
    assignments := names.map fun name =>
      { anchor := start
        text := "this." ++ name ++ " = " ++ name ++ ";"
        trivia := some ("\n" ++ indent) }
    closing := body.children.getLast?.bind fun last =>
      if last.isToken .closeBrace && !Text.hasLineBreak (last.leadingTrivia source) then
        some ("\n" ++ base)
      else
        none }

end Untype.Erasure
