-- Classes and the members of classes, interfaces and object types.
import Untype.Grammar.Functions

namespace Untype.Grammar

open Untype.Grammar.Parser

def startsSignature (s : Scanner) : Bool := s.kind == .openParen || s.kind == .lessThan

/-! ## Signatures -/

/-- What ends a member of a type. -/
def memberEnd : Parser (List Node) := do
  if ← tokenIs .comma then return [← eat] else semicolon

/-- `[key: T]: U` after what already stands in front of it. -/
def indexSignature (r : Rules) (front : List Node) : Parser Node := do
  let opening ← eat
  let parameters ← commaList .closeBracket (parameter r)
  let closing ← expect .closeBracket
  let type ← optionalTypeMark r
  let stop ← memberEnd
  return .group .indexSignature (front ++ opening :: parameters ++ [closing] ++ type ++ stop)

def typeMember (r : Rules) : Parser Node := do
  if ← ask startsSignature then
    let head ← signature r
    let stop ← memberEnd
    return .group .callSignature (head ++ stop)
  else if ← ask fun s => s.kind == .newKeyword && startsSignature s.scan then
    let word ← eat
    let head ← signature r
    let stop ← memberEnd
    return .group .constructSignature (word :: head ++ stop)
  else
    let modifiers ← manyWhile (fun s => s.isMemberModifier || s.isAccessorStart) eat
    if ← ask fun s => s.kind == .openBracket && s.isIndexSignature then
      indexSignature r modifiers
    else
      let name ← propertyName r
      let question ← optional .question
      let front := modifiers ++ [name] ++ question
      if ← ask startsSignature then
        let head ← signature r
        let stop ← memberEnd
        return .group .methodSignature (front ++ head ++ stop)
      else
        let type ← optionalTypeMark r
        let stop ← memberEnd
        return .group .propertySignature (front ++ type ++ stop)

def typeMembers (r : Rules) : Parser (List Node) := do
  let opening ← expect .openBrace
  let members ← manyUntil (·.isBlockEnd) (nested (typeMember r))
  let closing ← expect .closeBrace
  return opening :: members ++ [closing]

/-! ## Members of classes -/

/-- A method or a property, after decorators and modifiers. -/
def propertyOrMethod (r : Rules) (front : List Node) : Parser Node := do
  let async := front.any (·.isToken .asyncKeyword)
  let star ← optional .asterisk
  let name ← propertyName r
  let mark ← eatIf fun s => s.kind == .question || s.kind == .exclamation
  let front := front ++ star ++ [name] ++ mark
  if !star.isEmpty || (← ask startsSignature) then
    let rest ← signatureAndBody r async (!star.isEmpty) true
    return .group .methodDeclaration (front ++ rest)
  else
    let type ← optionalTypeMark r
    let value ← within (fun c => { c with disallowIn := false }) (initializer r)
    let stop ← semicolon
    return .group .propertyDeclaration (front ++ type ++ value ++ stop)

def memberAfter (r : Rules) (front : List Node) : Parser Node := do
  if ← ask fun s => s.kind == .constructorKeyword && startsSignature s.scan then
    let word ← eat
    let rest ← signatureAndBody r false false true
    return .group .classConstructor (front ++ word :: rest)
  else if ← ask (·.isAccessorStart) then
    let kind := if ← tokenIs .getKeyword then NodeKind.getAccessor else .setAccessor
    let word ← eat
    let name ← propertyName r
    let rest ← signatureAndBody r false false true
    return .group kind (front ++ word :: name :: rest)
  else if ← ask fun s => s.kind == .openBracket && s.isIndexSignature then
    indexSignature r front
  else
    propertyOrMethod r front

def classMember (r : Rules) : Parser Node := do
  if ← tokenIs .semicolon then
    return .group .semicolonClassElement [← eat]
  else if ← ask fun s => s.kind == .staticKeyword && s.nextIs .openBrace then
    let word ← eat
    let body ← functionBody r false false
    return .group .classStaticBlockDeclaration [word, body]
  else
    let decorators ← decorators r
    let modifiers ← manyWhile (·.isMemberModifier) eat
    memberAfter r (decorators ++ modifiers)

/-! ## Classes -/

def heritageType (r : Rules) : Parser Node := do
  let base ← r .leftHandSide
  let arguments ← parseIf (·.kind == .lessThan) (typeArguments r)
  return .group .expressionWithTypeArguments (base :: arguments)

/-- `extends A<T>` and `implements I, J`. -/
def heritageClauses (r : Rules) : Parser (List Node) :=
  manyWhile (·.isOneOf [.extendsKeyword, .implementsKeyword]) do
    let word ← eat
    let bases ← commaItems (heritageType r)
    return .group .heritageClause (word :: bases)

def classLike (r : Rules) (kind : NodeKind) (front : List Node) : Parser Node := do
  let word ← expect .classKeyword
  let name ← parseIf (fun s => s.isIdentifier && s.kind != .implementsKeyword) identifier
  let types ← optionalTypeParameters r
  let heritage ← heritageClauses r
  let opening ← expect .openBrace
  let members ← manyUntil (·.isBlockEnd) (nested (classMember r))
  let closing ← expect .closeBrace
  return .group kind
    (front ++ word :: name ++ types ++ heritage ++ opening :: members ++ [closing])

end Untype.Grammar
