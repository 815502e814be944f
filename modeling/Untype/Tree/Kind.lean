-- The kinds of nodes that have children: one for each production of the
-- grammar.
import Untype.Token.Kind

namespace Untype

/-- The production that a node stands for. -/
inductive NodeKind where
  | sourceFile
  | qualifiedName
  | computedPropertyName
  | block
  | emptyStatement
  | variableStatement
  | variableDeclarationList
  | variableDeclaration
  | expressionStatement
  | ifStatement
  | doStatement
  | whileStatement
  | forStatement
  | forInStatement
  | forOfStatement
  | continueStatement
  | breakStatement
  | returnStatement
  | withStatement
  | switchStatement
  | caseBlock
  | caseClause
  | defaultClause
  | labeledStatement
  | throwStatement
  | tryStatement
  | catchClause
  | debuggerStatement
  | functionDeclaration
  | classDeclaration
  | interfaceDeclaration
  | typeAliasDeclaration
  | enumDeclaration
  | enumMember
  | moduleDeclaration
  | moduleBlock
  | importDeclaration
  | importClause
  | namespaceImport
  | namedImports
  | importSpecifier
  | importEqualsDeclaration
  | externalModuleReference
  | importAttributes
  | importAttribute
  | exportDeclaration
  | namedExports
  | namespaceExport
  | exportSpecifier
  /-- `export = e` and `export default e`. -/
  | exportAssignment
  /-- `export as namespace X`. -/
  | namespaceExportDeclaration
  | propertyDeclaration
  | methodDeclaration
  | classConstructor
  | getAccessor
  | setAccessor
  | indexSignature
  | classStaticBlockDeclaration
  | semicolonClassElement
  | heritageClause
  | expressionWithTypeArguments
  | decorator
  /-- `(a, b)` of a function. -/
  | parameterList
  | parameter
  | typeParameter
  | propertySignature
  | methodSignature
  | callSignature
  | constructSignature
  | objectBindingPattern
  | arrayBindingPattern
  | bindingElement
  | arrayLiteralExpression
  | objectLiteralExpression
  | propertyAssignment
  | shorthandPropertyAssignment
  | spreadAssignment
  | spreadElement
  | propertyAccessExpression
  | elementAccessExpression
  | callExpression
  | newExpression
  | taggedTemplateExpression
  | parenthesizedExpression
  | functionExpression
  | arrowFunction
  | deleteExpression
  | typeOfExpression
  | voidExpression
  | awaitExpression
  | prefixUnaryExpression
  | postfixUnaryExpression
  | binaryExpression
  | conditionalExpression
  | templateExpression
  | templateSpan
  | yieldExpression
  | classExpression
  | metaProperty
  /-- `<T>e`. -/
  | typeAssertionExpression
  | asExpression
  | satisfiesExpression
  | nonNullExpression
  /-- `f<T>` without a call. -/
  | instantiationExpression
  | jsxElement
  | jsxSelfClosingElement
  | jsxOpeningElement
  | jsxClosingElement
  | jsxFragment
  | jsxOpeningFragment
  | jsxClosingFragment
  | jsxAttribute
  | jsxSpreadAttribute
  | jsxExpression
  | jsxNamespacedName
  /-- `: T` with the colon. -/
  | annotatedType
  /-- `<T, U>` of a declaration. -/
  | typeParameters
  /-- `<T, U>` of a call, a reference or a heritage clause. -/
  | typeArguments
  | keywordType
  | typeReference
  | functionType
  | constructorType
  | typeQuery
  | typeLiteral
  | arrayType
  | tupleType
  | namedTupleMember
  | optionalType
  | restType
  | unionType
  | intersectionType
  | conditionalType
  | inferType
  | parenthesizedType
  | thisType
  | typeOperator
  | indexedAccessType
  | mappedType
  | literalType
  | templateLiteralType
  | templateLiteralTypeSpan
  | importType
  | typePredicate
deriving DecidableEq, Repr, Inhabited

namespace NodeKind

/-- The name of a kind in listings. -/
def name : NodeKind → String
  | .classConstructor => "Constructor"
  | .annotatedType => "TypeAnnotation"
  | kind => constructorName kind

/-- Types: what stands in the place of a type only. -/
def isTypeNode : NodeKind → Bool
  | .keywordType | .typeReference | .functionType | .constructorType | .typeQuery | .typeLiteral
  | .arrayType | .tupleType | .namedTupleMember | .optionalType | .restType | .unionType
  | .intersectionType | .conditionalType | .inferType | .parenthesizedType | .thisType
  | .typeOperator | .indexedAccessType | .mappedType | .literalType | .templateLiteralType
  | .templateLiteralTypeSpan | .importType | .typePredicate => true
  | _ => false

/-- What has no effect when the program runs. -/
def isTypeOnly : NodeKind → Bool
  | .interfaceDeclaration | .typeAliasDeclaration | .annotatedType | .typeParameters
  | .typeParameter | .typeArguments | .indexSignature | .propertySignature | .methodSignature
  | .callSignature | .constructSignature | .namespaceExportDeclaration
  | .typeAssertionExpression | .asExpression | .satisfiesExpression | .nonNullExpression
  | .instantiationExpression => true
  | kind => kind.isTypeNode

/-- What has parameters and a body. -/
def isFunctionLike : NodeKind → Bool
  | .functionDeclaration | .functionExpression | .arrowFunction | .methodDeclaration
  | .classConstructor | .getAccessor | .setAccessor => true
  | _ => false

end NodeKind

end Untype
