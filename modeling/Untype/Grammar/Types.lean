-- Types.
import Untype.Grammar.Members

namespace Untype.Grammar

open Untype.Grammar.Parser

/-! ## References -/

def argumentsOnLine (r : Rules) : Parser (List Node) :=
  parseIf (fun s => s.kind == .lessThan && !s.afterLineBreak) (typeArguments r)

/-- `A.B<T>`. -/
def typeReference (r : Rules) : Parser Node := do
  let name ← entityName
  let arguments ← argumentsOnLine r
  return .group .typeReference (name :: arguments)

/-- `import("m").A<T>`, maybe after `typeof`. -/
def importType (r : Rules) (front : List Node) : Parser Node := do
  let word ← expect .importKeyword
  let opening ← expect .openParen
  let module ← fullType r
  let options ← do
    if ← tokenIs .comma then
      let comma ← eat
      if ← tokenIs .closeParen then
        pure [comma]
      else
        let value ← r .assignment
        let last ← optional .comma
        pure (comma :: value :: last)
    else
      pure []
  let closing ← expect .closeParen
  let names ← loopFrom [] fun seen => do
    if ← tokenIs .dot then
      let dot ← eat
      let name ← identifierName
      return .again (seen ++ [dot, name])
    else
      return .finish seen
  let arguments ← argumentsOnLine r
  return .group .importType
    (front ++ [word, opening, module] ++ options ++ closing :: names ++ arguments)

/-- `typeof x.y<T>`. -/
def typeQuery (r : Rules) : Parser Node := do
  let word ← eat
  if ← tokenIs .importKeyword then
    importType r [word]
  else
    let name ← entityName
    let arguments ← argumentsOnLine r
    return .group .typeQuery (word :: name :: arguments)

/-! ## Bracketed types -/

/-- A piece of a template after a substitution, which the closing brace starts. -/
def templatePiece : Parser (Node × Bool) := do
  if ← tokenIs .closeBrace then
    moveBy (·.rescanTemplate)
    let more ← tokenIs .templateMiddle
    let piece ← eat
    return (piece, more)
  else
    failExpected "\x7d"

/-- Substitutions with the pieces after them, up to the end of a template. -/
def templateSpans (kind : NodeKind) (substitution : Parser Node) : Parser (List Node) :=
  loopFrom [] fun seen => do
    let value ← substitution
    let (piece, more) ← templatePiece
    let seen := .group kind [value, piece] :: seen
    if more then return .again seen else return .finish seen.reverse

def templateType (r : Rules) : Parser Node := do
  let head ← eat
  let spans ← templateSpans .templateLiteralTypeSpan (fullType r)
  return .group .templateLiteralType (head :: spans)

/-- `+` or `-` before a word, or the word alone, or nothing. -/
def signedWord (word : TokenKind) : Parser (List Node) := do
  if ← ask (·.isOneOf [.plus, .minus]) then
    let sign ← eat
    let word ← expect word
    return [sign, word]
  else
    optional word

/-- `{ [K in T as N]?: V }`. -/
def mappedType (r : Rules) : Parser Node := do
  let opening ← eat
  let readonly ← signedWord .readonlyKeyword
  let bracket ← expect .openBracket
  let name ← identifier
  let word ← expect .inKeyword
  let keys ← fullType r
  let newName ← typeAfter r .asKeyword
  let endBracket ← expect .closeBracket
  let question ← signedWord .question
  let type ← optionalTypeMark r
  let stop ← eatIf (·.isOneOf [.semicolon, .comma])
  let closing ← expect .closeBrace
  return .group .mappedType
    (opening :: readonly ++ bracket :: .group .typeParameter [name, word, keys] :: newName ++
      endBracket :: question ++ type ++ stop ++ [closing])

/-- `{ a: T }`. -/
def typeLiteral (r : Rules) : Parser Node := do
  let members ← within (fun c => { c with noConditionalTypes := false }) (typeMembers r)
  return .group .typeLiteral members

def tupleMember (r : Rules) : Parser Node := do
  if ← ask (·.isNamedTupleMember) then
    let dots ← optional .dotDotDot
    let name ← identifierName
    let question ← optional .question
    let colon ← expect .colon
    let type ← fullType r
    return .group .namedTupleMember (dots ++ [name] ++ question ++ [colon, type])
  else if ← tokenIs .dotDotDot then
    let dots ← eat
    let type ← fullType r
    return .group .restType [dots, type]
  else
    let type ← fullType r
    if ← tokenIs .question then
      let question ← eat
      return .group .optionalType [type, question]
    else
      return type

/-- `[A, b?: B, ...C]`. -/
def tupleType (r : Rules) : Parser Node := do
  let opening ← eat
  let members ← commaList .closeBracket (nested (tupleMember r))
  let closing ← expect .closeBracket
  return .group .tupleType (opening :: members ++ [closing])

def parenthesizedType (r : Rules) : Parser Node := do
  let opening ← eat
  let type ← fullType r
  let closing ← expect .closeParen
  return .group .parenthesizedType [opening, type, closing]

/-! ## Operators -/

def single (kind : NodeKind) : Parser Node := do
  return .group kind [← eat]

/-- A type that no operator takes part in. -/
def plainType (r : Rules) : Parser Node := do
  match ← kind with
  | .anyKeyword | .unknownKeyword | .stringKeyword | .numberKeyword | .bigIntKeyword
  | .symbolKeyword | .booleanKeyword | .undefinedKeyword | .neverKeyword | .objectKeyword
  | .intrinsicKeyword =>
    if ← ask (·.nextIs .dot) then typeReference r else single .keywordType
  | .voidKeyword | .nullKeyword => single .keywordType
  | .thisKeyword => single .thisType
  | .stringLiteral | .numericLiteral | .bigIntLiteral | .trueKeyword | .falseKeyword
  | .noSubstitutionTemplateLiteral => single .literalType
  | .minus =>
    if ← ask (·.scan.isOneOf [.numericLiteral, .bigIntLiteral]) then
      let sign ← eat
      let literal ← eat
      return .group .literalType [sign, literal]
    else
      typeReference r
  | .templateHead => templateType r
  | .typeOfKeyword => typeQuery r
  | .importKeyword => importType r []
  | .openBrace => if ← ask (·.opensMappedType) then mappedType r else typeLiteral r
  | .openBracket => tupleType r
  | .openParen => parenthesizedType r
  | _ => typeReference r

/-- `T[]` and `T[K]`. -/
def postfixType (r : Rules) : Parser Node := do
  let first ← plainType r
  loopFrom first fun type => do
    if ← ask fun s => s.kind == .openBracket && !s.afterLineBreak then
      let opening ← eat
      if ← tokenIs .closeBracket then
        let closing ← eat
        return .again (.group .arrayType [type, opening, closing])
      else
        let key ← fullType r
        let closing ← expect .closeBracket
        return .again (.group .indexedAccessType [type, opening, key, closing])
    else
      return .finish type

/-- The bound of an inferred type. It is not taken if the word `extends` turns out to belong
to a conditional type. -/
def inferBound (r : Rules) : Parser (List Node) := do
  let word ← expect .extendsKeyword
  let bound ← within (fun c => { c with noConditionalTypes := true }) (r .type)
  if (← context).noConditionalTypes || !(← tokenIs .question) then return [word, bound]
  else fail .constraintOfConditional

/-- `infer U extends C`. -/
def inferType (r : Rules) : Parser Node := do
  let word ← eat
  let name ← identifier
  let bound ← attempt (inferBound r)
  return .group .inferType (word :: name :: bound.getD [])

/-- `keyof T` and the like. -/
def operatorType (r : Rules) : Parser Node := do
  match ← kind with
  | .keyOfKeyword | .uniqueKeyword | .readonlyKeyword =>
    let word ← eat
    let type ← nested (r .typeOperator)
    return .group .typeOperator [word, type]
  | .inferKeyword => inferType r
  | _ => postfixType r

/-- `<T>(a: A) => R` and `new (a: A) => R`. -/
def functionType (r : Rules) : Parser Node := do
  let modifier ← optional .abstractKeyword
  let word ← optional .newKeyword
  let types ← optionalTypeParameters r
  let parameters ← parameterList r
  let arrow ← expect .equalsGreaterThan
  let result ← typeOrPredicate r
  return .group (if word.isEmpty then .functionType else .constructorType)
    (modifier ++ word ++ types ++ [parameters, arrow, result])

/-- Types joined by an operator, which may also stand in front. One type alone stays as it
is. -/
def joinedType (r : Rules) (operator : TokenKind) (kind : NodeKind) (part : Parser Node) :
    Parser Node := do
  let one : Parser Node := do
    if ← ask (·.startsFunctionType) then functionType r else part
  let front ← optional operator
  let first ← one
  let parts ← loopFrom [first] fun seen => do
    if ← tokenIs operator then
      let mark ← eat
      let next ← one
      return .again (next :: mark :: seen)
    else
      return .finish seen.reverse
  match front, parts with
  | [], [type] => return type
  | _, _ => return .group kind (front ++ parts)

def unionType (r : Rules) : Parser Node :=
  joinedType r .bar .unionType (joinedType r .ampersand .intersectionType (operatorType r))

/-- `A extends B ? C : D`, after `A`. -/
def conditionalType (r : Rules) (checked : Node) : Parser Node := do
  let word ← eat
  let bound ← within (fun c => { c with noConditionalTypes := true }) (r .type)
  let question ← expect .question
  let yes ← fullType r
  let colon ← expect .colon
  let no ← fullType r
  return .group .conditionalType [checked, word, bound, question, yes, colon, no]

def anyType (r : Rules) : Parser Node := do
  if ← ask (·.startsFunctionType) then
    functionType r
  else
    let type ← unionType r
    if (← context).noConditionalTypes then
      return type
    else if ← ask fun s => s.kind == .extendsKeyword && !s.afterLineBreak then
      conditionalType r type
    else
      return type

end Untype.Grammar
