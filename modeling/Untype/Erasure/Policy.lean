-- What is looked at in the children of a node, kind by kind.
import Untype.Tree.Kind

namespace Untype.Erasure

/-- What is looked at in the children of a node. -/
inductive Policy where
  | statements
  /-- The head and the members of a class. -/
  | classBody
  /-- Modifiers, `?` and `!` of a member or parameter. -/
  | member
  /-- A `!` after the name of a variable. -/
  | variableName
  /-- Parameters between commas, among them one called `this`. -/
  | parameters
  /-- The type parameters and the result type of an arrow function. -/
  | arrow
  /-- A type in angle brackets before an operand. -/
  | assertion
  /-- An operand before `as`, `satisfies` or `!`. -/
  | cast
  /-- The default, namespace and named bindings of an import. -/
  | importClause
  /-- The names in braces of an import or export. -/
  | namedBindings
  | importEquals
  /-- An export with an equals sign or `default`. -/
  | exportAssignment
  /-- Nothing but types, their parameters and their arguments. -/
  | plain
  /-- The node is type syntax itself. -/
  | typeSyntax
deriving DecidableEq, Repr

def policy : NodeKind → Policy
  | .sourceFile | .block | .moduleBlock | .caseClause | .defaultClause => .statements
  | .variableDeclaration => .variableName
  | .classDeclaration | .classExpression => .classBody
  | .importClause => .importClause
  | .namedImports | .namedExports => .namedBindings
  | .importEqualsDeclaration => .importEquals
  | .exportAssignment => .exportAssignment
  | .propertyDeclaration | .methodDeclaration | .classConstructor | .getAccessor | .setAccessor
  | .parameter => .member
  | .parameterList => .parameters
  | .arrowFunction => .arrow
  | .typeAssertionExpression => .assertion
  | .asExpression | .satisfiesExpression | .nonNullExpression => .cast
  | .interfaceDeclaration | .typeAliasDeclaration | .namespaceExportDeclaration
  | .indexSignature | .typeParameter | .propertySignature | .methodSignature | .callSignature
  | .constructSignature | .annotatedType | .typeParameters | .typeArguments => .typeSyntax
  | kind => if kind.isTypeNode then .typeSyntax else .plain

/-- The children are statements or members, which a line break can end. -/
def Policy.holdsUnits : Policy → Bool
  | .statements | .classBody => true
  | _ => false

/-- The children stand between commas. -/
def Policy.holdsList : Policy → Bool
  | .parameters | .importClause | .namedBindings => true
  | _ => false

end Untype.Erasure
