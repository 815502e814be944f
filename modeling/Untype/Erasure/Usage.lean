-- Which names a file uses when it runs and which only in types. A name
-- counts wherever it is written: a name that is hidden by another of the
-- same spelling can keep an import, never drop one.
import Untype.Erasure.Options
import Untype.Tree.Node

namespace Untype.Erasure

inductive Use where
  | value (name : String)
  | type (name : String)
  /-- An element, which is a call of the element function. -/
  | element
deriving DecidableEq, Repr

/-- The names below such a node are uses in types. -/
def isTypeContext (kind : NodeKind) (children : List Node) : Bool :=
  match kind with
  | .annotatedType | .typeParameters | .typeArguments | .interfaceDeclaration
  | .typeAliasDeclaration | .indexSignature | .propertySignature | .methodSignature
  | .callSignature | .constructSignature => true
  | .heritageClause => children.any (Node.isToken .implementsKeyword)
  | kind => kind.isTypeNode

def elementUse : NodeKind → List Use
  | .jsxElement | .jsxSelfClosingElement | .jsxFragment => [.element]
  | _ => []

mutual

/-- The uses in a tree. Imports declare names and use none, an import with an equals sign uses
what stands behind the sign. -/
def uses (source : String) (inType : Bool) : Node → List Use
  | .leaf token =>
    if token.kind == .identifier then
      let name := Text.slice source token.span.start token.span.stop
      [if inType then .type name else .value name]
    else
      []
  | .inserted _ => []
  | .branch .importDeclaration _ _ _ => []
  | .branch .importEqualsDeclaration _ _ children => usesOfReference source inType children
  | .branch kind _ _ children =>
    elementUse kind ++ usesOf source (inType || isTypeContext kind children) children

def usesOf (source : String) (inType : Bool) : List Node → List Use
  | [] => []
  | child :: rest => uses source inType child ++ usesOf source inType rest

/-- The uses in the last tree, semicolons apart. -/
def usesOfReference (source : String) (inType : Bool) : List Node → List Use
  | [] => []
  | child :: rest =>
    if rest.all (Node.isToken .semicolon) then
      if child.isToken .semicolon then [] else uses source inType child
    else
      usesOfReference source inType rest

end

/-! ## Declared names -/

/-- The name that a declaration declares: the first of its children that is a name. -/
def declaredName? (source : String) (declaration : Node) : Option String :=
  declaration.children.findSome? (Node.name? source)

def bindingName? (source : String) (binding : Node) : Option String :=
  match binding.label with
  | .token .identifier => some (binding.text source)
  | .branch .namespaceImport => binding.children.getLast?.map (Node.text source)
  | .branch .importSpecifier => binding.children.getLast?.map (Node.text source)
  | _ => none

/-- The bindings of an import: the default one, the namespace, and those in braces. -/
def importBindings (statement : Node) : List Node :=
  match statement.child? .importClause with
  | none => []
  | some clause =>
    clause.children.flatMap fun child =>
      match child.label with
      | .token .identifier => [child]
      | .branch .namespaceImport => [child]
      | .branch .namedImports => child.children.filter (Node.isKind .importSpecifier)
      | _ => []

def isMarkedType (binding : Node) : Bool :=
  binding.isKind .importSpecifier && binding.hasToken .typeKeyword

def isTypeImport (statement : Node) : Bool :=
  (statement.child? .importClause).any (Node.hasToken .typeKeyword)

mutual

/-- The names that a binding pattern declares, and those that its defaults use. -/
def patternNames (source : String) : Node → List String
  | .leaf token =>
    if token.kind == .identifier then [Text.slice source token.span.start token.span.stop] else []
  | .inserted _ => []
  | .branch kind _ _ children =>
    match kind with
    | .variableDeclarationList | .objectBindingPattern | .arrayBindingPattern | .bindingElement =>
      patternNamesOf source children
    | .variableDeclaration => patternNamesOfFirst source children
    | _ => []

def patternNamesOf (source : String) : List Node → List String
  | [] => []
  | child :: rest => patternNames source child ++ patternNamesOf source rest

def patternNamesOfFirst (source : String) : List Node → List String
  | [] => []
  | child :: _ => patternNames source child

end

def declaredTypes (source : String) (statement : Node) : List String :=
  match statement.kind? with
  | some .interfaceDeclaration | some .typeAliasDeclaration =>
    (declaredName? source statement).toList
  | some .importDeclaration =>
    let bindings := importBindings statement
    (bindings.filter fun b => isTypeImport statement || isMarkedType b).filterMap
      (bindingName? source)
  | _ => []

def declaredValues (source : String) (statement : Node) : List String :=
  match statement.kind? with
  | some .importDeclaration =>
    let bindings := importBindings statement
    (bindings.filter fun b => !(isTypeImport statement || isMarkedType b)).filterMap
      (bindingName? source)
  | some .variableStatement => patternNamesOf source statement.children
  | some .functionDeclaration | some .classDeclaration | some .enumDeclaration
  | some .moduleDeclaration | some .importEqualsDeclaration =>
    (declaredName? source statement).toList
  | _ => []

structure Usage where
  valueNames : List String
  typeNames : List String
  /-- Declared at the top as types, and as values. -/
  declaredTypes : List String
  declaredValues : List String
deriving Repr

namespace Usage

def ofTree (options : Options) (source : String) (root : Node) : Usage :=
  let all := uses source false root
  { valueNames := all.filterMap fun
      | .value name => some name
      | .element => some options.elementName
      | .type _ => none
    typeNames := all.filterMap fun
      | .type name => some name
      | _ => none
    declaredTypes := root.children.flatMap (Erasure.declaredTypes source)
    declaredValues := root.children.flatMap (Erasure.declaredValues source) }

/-- The name is used, and in types only. -/
def isTypeOnlyBinding (usage : Usage) (name : String) : Bool :=
  usage.typeNames.contains name && !usage.valueNames.contains name

/-- The name is declared, and as a type only. -/
def isTypeOnlyDeclaration (usage : Usage) (name : String) : Bool :=
  usage.declaredTypes.contains name && !usage.declaredValues.contains name

end Usage

end Untype.Erasure
