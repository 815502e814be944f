-- Namespaces: which of them hold nothing but types, and which can become a
-- function that fills an object.
import Untype.Erasure.Usage
import Untype.Text.Indent

namespace Untype.Erasure

/-! ## Types only -/

mutual

/-- Nothing of the statement is there at run time. -/
def isTypeOnlyStatement : Node → Bool
  | .branch kind _ _ children =>
    match kind with
    | .interfaceDeclaration | .typeAliasDeclaration | .namespaceExportDeclaration => true
    | kind =>
      children.any (Node.isToken .declareKeyword) ||
        match kind with
        | .functionDeclaration => !children.any (Node.isKind .block)
        | .moduleDeclaration => isTypeOnlyModule children
        | .importDeclaration =>
          (children.find? (Node.isKind .importClause)).any (Node.hasToken .typeKeyword)
        | .importEqualsDeclaration => children.any (Node.isToken .typeKeyword)
        | .exportDeclaration => children[1]?.any (Node.isToken .typeKeyword)
        | _ => false
  | _ => false

/-- Nothing of a namespace with these children is there at run time: it has no body, or
nothing of the body's statements is. -/
def isTypeOnlyModule : List Node → Bool
  | [] => true
  | .branch .moduleBlock _ _ statements :: _ => areTypeOnly statements
  | _ :: rest => isTypeOnlyModule rest

/-- Nothing of the statements is there at run time. Tokens between them do not count. -/
def areTypeOnly : List Node → Bool
  | [] => true
  | child :: rest => (child.token?.isSome || isTypeOnlyStatement child) && areTypeOnly rest

end

/-! ## Namespaces as functions -/

/-- The name of a namespace with these children, if it is a single identifier. -/
def namespaceName? (source : String) (children : List Node) : Option String :=
  if children.any fun child =>
      child.isToken .dot || child.isToken .stringLiteral || child.isToken .globalKeyword then
    none
  else
    children.findSome? (Node.name? source)

/-- A declaration `name = value` with a plain name: the name, and which child the value is. -/
def constantOf? (source : String) (declaration : List Node) : Option (String × Nat) := do
  let name ← declaration.head?.bind (Node.name? source)
  let sign ← declaration.findIdx? (Node.isToken .equals)
  if sign + 1 < declaration.length then some (name, sign + 1) else none

/-- A `const` statement in which all names are plain and have values. -/
def declaresConstants (source : String) (statement : Node) : Bool :=
  (statement.child? .variableDeclarationList).any fun list =>
    list.hasToken .constKeyword && list.children.all fun declaration =>
      !declaration.isKind .variableDeclaration ||
        (constantOf? source declaration.children).isSome

/-- A namespace with these children can be a variable: it has a plain name, which no function
and no class among the statements beside it shares. -/
def canBeVariable (source : String) (siblings children : List Node) : Bool :=
  (namespaceName? source children).any fun name =>
    !siblings.any fun sibling =>
      (sibling.isKind .functionDeclaration || sibling.isKind .classDeclaration) &&
        declaredName? source sibling == some name

/-- An exported statement whose names can be properties of an object. -/
def isExportable (source : String) (statement : Node) : Bool :=
  match statement.kind? with
  | some .functionDeclaration | some .classDeclaration => (declaredName? source statement).isSome
  | some .variableStatement => declaresConstants source statement
  | _ => false

mutual

/-- The statement can stand in the body of a function. -/
def isLowerableMember (source : String) (siblings : List Node) : Node → Bool
  | .branch kind span marks children =>
    let statement := Node.branch kind span marks children
    isTypeOnlyStatement statement ||
      if kind == .moduleDeclaration then
        canBeVariable source siblings children && isLowerableModule source children
      else
        !children.any (Node.isToken .exportKeyword) || isExportable source statement
  | _ => true

/-- The body of a namespace with these children can be the body of a function. -/
def isLowerableModule (source : String) : List Node → Bool
  | [] => false
  | .branch .moduleBlock _ _ statements :: _ => areLowerable source statements statements
  | _ :: rest => isLowerableModule source rest

def areLowerable (source : String) (siblings : List Node) : List Node → Bool
  | [] => true
  | child :: rest =>
    (child.token?.isSome || isLowerableMember source siblings child) &&
      areLowerable source siblings rest

end

/-- The namespace can become a variable and a function, beside these statements. -/
def isLowerable (source : String) (siblings : List Node) (declaration : Node) : Bool :=
  canBeVariable source siblings declaration.children &&
    isLowerableModule source declaration.children

/-- A namespace as a variable and a function that is called at once. -/
structure Lowering where
  name : String
  /-- The indentation of the line with the namespace. -/
  indent : String
  /-- What the function is called with. -/
  argument : String
  /-- The namespace is a property of another one, so that `export` goes. -/
  nested : Bool
deriving DecidableEq, Repr

/-- How the namespace becomes a function, if `owner` is the namespace that exports it. -/
def lowering (source : String) (owner : Option String) (declaration : Node) : Lowering :=
  let name := (namespaceName? source declaration.children).getD ""
  { name
    indent := Text.lineIndent source declaration.span.start
    argument :=
      match owner with
      | some owner =>
        name ++ " = " ++ owner ++ "." ++ name ++ " || (" ++ owner ++ "." ++ name ++ " = \x7b\x7d)"
      | none => name ++ " || (" ++ name ++ " = \x7b\x7d)"
    nested := owner.isSome }

end Untype.Erasure
