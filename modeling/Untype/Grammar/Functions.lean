-- Blocks, bindings, parameters and bodies: what functions are made of.
import Untype.Grammar.Names

namespace Untype.Grammar

open Untype.Grammar.Parser

/-! ## Blocks -/

def block (r : Rules) : Parser Node := do
  let opening ← expect .openBrace
  let statements ← manyUntil (·.isBlockEnd) (r .statement)
  let closing ← expect .closeBrace
  return .group .block (opening :: statements ++ [closing])

def functionBody (r : Rules) (async generator : Bool) : Parser Node :=
  within (fun c => { c with disallowIn := false, conditionalTrue := false, async, generator })
    (block r)

/-! ## Bindings -/

/-- `= e`, if it is next. -/
def initializer (r : Rules) : Parser (List Node) := do
  if ← tokenIs .equals then
    let equals ← eat
    let value ← r .assignment
    return [equals, value]
  else
    return []

def objectBinding (r : Rules) : Parser Node := do
  let target ← do
    if ← tokenIs .dotDotDot then
      let dots ← eat
      let name ← identifier
      pure [dots, name]
    else if ← ask fun s => s.isIdentifier && !s.nextIs .colon then
      let name ← identifier
      pure [name]
    else
      let key ← propertyName r
      let colon ← expect .colon
      let name ← r .bindingName
      pure [key, colon, name]
  let default ← initializer r
  return .group .bindingElement (target ++ default)

def arrayBinding (r : Rules) : Parser Node := do
  let dots ← optional .dotDotDot
  let name ← r .bindingName
  let default ← initializer r
  return .group .bindingElement (dots ++ [name] ++ default)

def bindingName (r : Rules) : Parser Node := do
  match ← kind with
  | .openBrace =>
    let opening ← eat
    let elements ← commaList .closeBrace (objectBinding r)
    let closing ← expect .closeBrace
    return .group .objectBindingPattern (opening :: elements ++ [closing])
  | .openBracket =>
    let opening ← eat
    let elements ← sparseList .closeBracket (arrayBinding r)
    let closing ← expect .closeBracket
    return .group .arrayBindingPattern (opening :: elements ++ [closing])
  | _ => identifier

/-- `: T`, if it is next. -/
def optionalTypeMark (r : Rules) : Parser (List Node) := parseIf (·.kind == .colon) (typeMark r)

/-- `x: T = e`, also what a catch clause binds. -/
def variableDeclaration (r : Rules) : Parser Node := do
  let name ← r .bindingName
  let definite ← eatIf fun s => s.kind == .exclamation && !s.afterLineBreak
  let type ← optionalTypeMark r
  let value ← initializer r
  return .group .variableDeclaration (name :: definite ++ type ++ value)

/-- `let x = 1, y`. -/
def variableDeclarations (r : Rules) : Parser Node := do
  let await ← optional .awaitKeyword
  if ← ask (·.isOneOf [.varKeyword, .letKeyword, .constKeyword, .usingKeyword]) then
    let word ← eat
    let declared ← commaItems (variableDeclaration r)
    return .group .variableDeclarationList (await ++ [word] ++ declared)
  else
    failExpected "var"

/-! ## Parameters -/

/-- `@e`, as often as it is there. -/
def decorators (r : Rules) : Parser (List Node) :=
  manyWhile (·.kind == .atSign) do
    let sign ← eat
    let value ← within (fun c => { c with decorator := true }) (r .leftHandSide)
    return .group .decorator [sign, value]

def parameter (r : Rules) : Parser Node := do
  let decorators ← decorators r
  let modifiers ← manyWhile (·.isParameterModifier) eat
  let name ← do
    if ← tokenIs .thisKeyword then
      pure [← eat]
    else
      let dots ← optional .dotDotDot
      let name ← r .bindingName
      pure (dots ++ [name])
  let question ← optional .question
  let type ← optionalTypeMark r
  let default ← initializer r
  return .group .parameter (decorators ++ modifiers ++ name ++ question ++ type ++ default)

def parameterList (r : Rules) : Parser Node := do
  let opening ← expect .openParen
  let parameters ← commaList .closeParen (parameter r)
  let closing ← expect .closeParen
  return .group .parameterList (opening :: parameters ++ [closing])

/-- `<T>(a, b): R`. -/
def signature (r : Rules) : Parser (List Node) := do
  let types ← optionalTypeParameters r
  let parameters ← parameterList r
  let result ← parseIf (·.kind == .colon) (returnMark r)
  return types ++ [parameters] ++ result

/-- `<T>(a, b): R` and a body. Where the body may be missing, a semicolon takes its place. -/
def signatureAndBody (r : Rules) (async generator mayLackBody : Bool) : Parser (List Node) := do
  let head ← signature r
  if ← tokenIs .openBrace then
    let body ← functionBody r async generator
    return head ++ [body]
  else if mayLackBody then
    let stop ← semicolon
    return head ++ stop
  else
    failExpected "\x7b"

end Untype.Grammar
