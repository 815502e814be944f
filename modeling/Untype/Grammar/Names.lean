-- Names, and the parts of declarations that are types.
import Untype.Grammar.Lookahead
import Untype.Grammar.Parser

namespace Untype.Grammar

open Untype.Grammar.Parser

/-! ## Names -/

/-- A name. A keyword that may stand as one becomes one. -/
def identifier : Parser Node := do
  if ← ask (·.isIdentifier) then eatAs .identifier else fail .nameExpected

/-- The name after a dot or of a property: any word, or a private name. -/
def identifierName : Parser Node := do
  if ← ask (·.isIdentifierOrKeyword) then eatAs .identifier
  else if ← tokenIs .privateIdentifier then eat
  else fail .nameExpected

def moduleExportName : Parser Node := do
  if ← tokenIs .stringLiteral then eat else identifierName

/-- `A.B.C`, grouped to the left. -/
def entityName : Parser Node := do
  let first ← identifier
  loopFrom first fun name => do
    if ← tokenIs .dot then
      let dot ← eat
      let member ← identifierName
      return .again (.group .qualifiedName [name, dot, member])
    else
      return .finish name

/-- The name of a property: a word, a literal, a private name or `[e]`. -/
def propertyName (r : Rules) : Parser Node := do
  match ← kind with
  | .stringLiteral | .numericLiteral | .bigIntLiteral | .privateIdentifier => eat
  | .openBracket =>
    let opening ← eat
    let key ← within (fun c => { c with disallowIn := false }) (r .assignment)
    let closing ← expect .closeBracket
    return .group .computedPropertyName [opening, key, closing]
  | _ => identifierName

/-! ## Types in declarations -/

/-- A type in which `extends` may make a conditional type. -/
def fullType (r : Rules) : Parser Node :=
  within (fun c => { c with noConditionalTypes := false }) (r .type)

/-- `: T`. -/
def typeMark (r : Rules) : Parser Node := do
  let colon ← expect .colon
  let type ← fullType r
  return .group .annotatedType [colon, type]

/-- A type, or `x is T`, or `asserts x is T`. -/
def typeOrPredicate (r : Rules) : Parser Node := do
  let asserts ← ask (·.isAssertion)
  if asserts || (← ask (·.isPredicate)) then
    let word ← if asserts then (do return [← eat]) else pure []
    let subject ← if ← tokenIs .thisKeyword then eat else identifier
    if ← tokenIs .isKeyword then
      let is ← eat
      let type ← fullType r
      return .group .typePredicate (word ++ [subject, is, type])
    else
      return .group .typePredicate (word ++ [subject])
  else
    fullType r

/-- The type of what a function returns, with the colon. -/
def returnMark (r : Rules) : Parser Node := do
  let colon ← expect .colon
  let type ← typeOrPredicate r
  return .group .annotatedType [colon, type]

/-- A keyword and the type after it, if the keyword is next. -/
def typeAfter (r : Rules) (word : TokenKind) : Parser (List Node) := do
  if ← tokenIs word then
    let word ← eat
    let type ← fullType r
    return [word, type]
  else
    return []

/-- `T extends U = D`, with modifiers in front. -/
def typeParameter (r : Rules) : Parser Node := do
  let modifiers ← manyWhile (·.isTypeParameterModifier) eat
  let name ← identifier
  let bound ← typeAfter r .extendsKeyword
  let default ← typeAfter r .equals
  return .group .typeParameter (modifiers ++ [name] ++ bound ++ default)

/-- `<T, U>` of a declaration. -/
def typeParameters (r : Rules) : Parser Node := do
  let opening ← expect .lessThan
  let parameters ← commaList .greaterThan (typeParameter r)
  let closing ← expect .greaterThan
  return .group .typeParameters (opening :: parameters ++ [closing])

def optionalTypeParameters (r : Rules) : Parser (List Node) :=
  parseIf (·.kind == .lessThan) (typeParameters r)

/-- `<A, B>` of a call, a reference or a heritage clause. -/
def typeArguments (r : Rules) : Parser Node := do
  let opening ← expect .lessThan
  let arguments ← commaItems (fullType r)
  let closing ← expect .greaterThan
  return .group .typeArguments (opening :: arguments ++ [closing])

end Untype.Grammar
