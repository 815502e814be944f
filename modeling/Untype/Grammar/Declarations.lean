-- Declarations, imports and exports.
import Untype.Grammar.Expressions

namespace Untype.Grammar

open Untype.Grammar.Parser

/-! ## Variables and functions -/

def variableStatement (r : Rules) (front : List Node) : Parser Node := do
  let declared ← variableDeclarations r
  let stop ← semicolon
  return .group .variableStatement (front ++ declared :: stop)

/-- A function, after modifiers. Its name may be missing, as may its body. -/
def functionDeclaration (r : Rules) (front : List Node) : Parser Node := do
  let async := front.any (·.isToken .asyncKeyword)
  let word ← expect .functionKeyword
  let star ← optional .asterisk
  let name ← parseIf (·.isIdentifier) identifier
  let rest ← signatureAndBody r async (!star.isEmpty) true
  return .group .functionDeclaration (front ++ word :: star ++ name ++ rest)

/-! ## Imports and exports -/

def importAttribute (r : Rules) : Parser Node := do
  let name ← moduleExportName
  let colon ← expect .colon
  let value ← r .assignment
  return .group .importAttribute [name, colon, value]

/-- `with { type: "json" }`, if it is next. -/
def importAttributes (r : Rules) : Parser (List Node) :=
  parseIf (fun s => s.kind == .withKeyword || (s.kind == .assertKeyword && !s.afterLineBreak)) do
    let word ← eat
    let opening ← expect .openBrace
    let attributes ← commaList .closeBrace (importAttribute r)
    let closing ← expect .closeBrace
    return .group .importAttributes (word :: opening :: attributes ++ [closing])

/-- `a`, `type a` or `a as b`. -/
def specifier (kind : NodeKind) : Parser Node := do
  let modifier ← eatIf fun s => s.kind == .typeKeyword && s.isSpecifierTypeModifier
  let name ← moduleExportName
  if ← tokenIs .asKeyword then
    let word ← eat
    let newName ← moduleExportName
    return .group kind (modifier ++ [name, word, newName])
  else
    return .group kind (modifier ++ [name])

/-- `{ a, b as c }`. -/
def specifiers (kind specifierKind : NodeKind) : Parser Node := do
  let opening ← expect .openBrace
  let names ← commaList .closeBrace (specifier specifierKind)
  let closing ← expect .closeBrace
  return .group kind (opening :: names ++ [closing])

/-- `from "m"` with its attributes. -/
def moduleSource (r : Rules) : Parser (List Node) := do
  let word ← expect .fromKeyword
  let module ← expect .stringLiteral
  let attributes ← importAttributes r
  return word :: module :: attributes

/-- `export = e`. -/
def exportEquals (r : Rules) (front : List Node) : Parser Node := do
  let word ← eat
  let equals ← eat
  let value ← r .assignment
  let stop ← semicolon
  return .group .exportAssignment (front ++ word :: equals :: value :: stop)

/-- `export default e`, after the two words. -/
def exportDefault (r : Rules) (front : List Node) : Parser Node := do
  let value ← r .assignment
  let stop ← semicolon
  return .group .exportAssignment (front ++ value :: stop)

/-- `export as namespace X`. -/
def exportNamespace (front : List Node) : Parser Node := do
  let word ← eat
  let as ← expect .asKeyword
  let namespaceWord ← expect .namespaceKeyword
  let name ← identifier
  let stop ← semicolon
  return .group .namespaceExportDeclaration
    (front ++ word :: as :: namespaceWord :: name :: stop)

/-- What an export names, and whether a module must follow. -/
def exportNames : Parser (Node × Bool) := do
  if ← tokenIs .asterisk then
    let star ← eat
    if ← tokenIs .asKeyword then
      let as ← eat
      let name ← moduleExportName
      return (.group .namespaceExport [star, as, name], true)
    else
      return (star, true)
  else
    let names ← specifiers .namedExports .exportSpecifier
    return (names, ← tokenIs .fromKeyword)

/-- `export { a, b } from "m"` and `export * from "m"`. -/
def exportDeclaration (r : Rules) (front : List Node) : Parser Node := do
  let word ← eat
  let modifier ← optional .typeKeyword
  let (names, hasModule) ← exportNames
  let module ← if hasModule then moduleSource r else pure []
  let stop ← semicolon
  return .group .exportDeclaration (front ++ word :: modifier ++ names :: module ++ stop)

/-- `require("m")` or a name. -/
def moduleReference : Parser Node := do
  if ← ask fun s => s.kind == .requireKeyword && s.nextIs .openParen then
    let word ← eatAs .identifier
    let opening ← expect .openParen
    let module ← expect .stringLiteral
    let closing ← expect .closeParen
    return .group .externalModuleReference [word, opening, module, closing]
  else
    entityName

/-- `* as n` or `{ a, b }`. -/
def importBindings : Parser Node := do
  if ← tokenIs .asterisk then
    let star ← eat
    let as ← expect .asKeyword
    let name ← identifier
    return .group .namespaceImport [star, as, name]
  else
    specifiers .namedImports .importSpecifier

/-- What an import binds, after a modifier. -/
def importClause (modifier : List Node) : Parser Node := do
  if ← ask (·.isIdentifier) then
    let name ← identifier
    if ← tokenIs .comma then
      let comma ← eat
      let bindings ← importBindings
      return .group .importClause (modifier ++ [name, comma, bindings])
    else
      return .group .importClause (modifier ++ [name])
  else
    let bindings ← importBindings
    return .group .importClause (modifier ++ [bindings])

def importDeclaration (r : Rules) (front : List Node) : Parser Node := do
  let word ← expect .importKeyword
  if ← tokenIs .stringLiteral then
    let module ← eat
    let attributes ← importAttributes r
    let stop ← semicolon
    return .group .importDeclaration (front ++ word :: module :: attributes ++ stop)
  else
    let modifier ← eatIf fun s => s.kind == .typeKeyword && s.isImportTypeModifier
    if ← ask fun s => s.isIdentifier && s.nextIs .equals then
      let name ← identifier
      let equals ← eat
      let value ← moduleReference
      let stop ← semicolon
      return .group .importEqualsDeclaration
        (front ++ word :: modifier ++ name :: equals :: value :: stop)
    else
      let clause ← importClause modifier
      let module ← moduleSource r
      let stop ← semicolon
      return .group .importDeclaration (front ++ word :: clause :: module ++ stop)

/-! ## Types, enums and namespaces -/

def interfaceDeclaration (r : Rules) (front : List Node) : Parser Node := do
  let word ← eat
  let name ← identifier
  let types ← optionalTypeParameters r
  let heritage ← heritageClauses r
  let members ← typeMembers r
  return .group .interfaceDeclaration (front ++ word :: name :: types ++ heritage ++ members)

def typeAlias (r : Rules) (front : List Node) : Parser Node := do
  let word ← eat
  let name ← identifier
  let types ← optionalTypeParameters r
  let equals ← expect .equals
  let type ← r .type
  let stop ← semicolon
  return .group .typeAliasDeclaration (front ++ word :: name :: types ++ equals :: type :: stop)

def enumMember (r : Rules) : Parser Node := do
  let name ← propertyName r
  let value ← initializer r
  return .group .enumMember (name :: value)

def enumDeclaration (r : Rules) (front : List Node) : Parser Node := do
  let word ← eat
  let name ← identifier
  let opening ← expect .openBrace
  let members ← commaList .closeBrace (enumMember r)
  let closing ← expect .closeBrace
  return .group .enumDeclaration (front ++ word :: name :: opening :: members ++ [closing])

/-- The name of a namespace: a string, or names with dots between them. -/
def moduleName : Parser (List Node) := do
  if ← tokenIs .stringLiteral then
    return [← eat]
  else
    let first ← identifier
    loopFrom [first] fun seen => do
      if ← tokenIs .dot then
        let dot ← eat
        let name ← identifier
        return .again (name :: dot :: seen)
      else
        return .finish seen.reverse

/-- `namespace A.B { }`, `module "m"` and `global { }`. -/
def moduleDeclaration (r : Rules) (front : List Node) : Parser Node := do
  let isGlobal ← tokenIs .globalKeyword
  let word ← eat
  let name ← if isGlobal then pure [] else moduleName
  if ← tokenIs .openBrace then
    let opening ← eat
    let statements ← manyUntil (·.isBlockEnd) (r .statement)
    let closing ← expect .closeBrace
    let body := .group .moduleBlock (opening :: statements ++ [closing])
    return .group .moduleDeclaration (front ++ word :: name ++ [body])
  else
    let stop ← semicolon
    return .group .moduleDeclaration (front ++ word :: name ++ stop)

/-! ## Declarations -/

/-- A declaration, after decorators and the word `export`. -/
def plainDeclaration (r : Rules) (front : List Node) : Parser Node := do
  let modifiers ← manyWhile (·.isDeclarationModifier) eat
  let front := front ++ modifiers
  match ← kind with
  | .varKeyword | .letKeyword | .constKeyword | .usingKeyword | .awaitKeyword =>
    variableStatement r front
  | .functionKeyword => functionDeclaration r front
  | .classKeyword => classLike r .classDeclaration front
  | .interfaceKeyword => interfaceDeclaration r front
  | .typeKeyword => typeAlias r front
  | .enumKeyword => enumDeclaration r front
  | .namespaceKeyword | .moduleKeyword | .globalKeyword => moduleDeclaration r front
  | .importKeyword => importDeclaration r front
  | _ => fail .declarationExpected

def exported (r : Rules) (front : List Node) : Parser Node := do
  let next ← ask (·.scan)
  match next.kind with
  | .equals => exportEquals r front
  | .asterisk | .openBrace => exportDeclaration r front
  | .asKeyword => exportNamespace front
  | .defaultKeyword =>
    let word ← eat
    let default ← eat
    let front := front ++ [word, default]
    if ← ask (·.startsDefaultDeclaration) then plainDeclaration r front
    else exportDefault r front
  | .typeKeyword =>
    if next.scan.isOneOf [.openBrace, .asterisk] then
      exportDeclaration r front
    else
      let word ← eat
      plainDeclaration r (front ++ [word])
  | _ =>
    let word ← eat
    plainDeclaration r (front ++ [word])

def declaration (r : Rules) : Parser Node := do
  let decorators ← decorators r
  if ← tokenIs .exportKeyword then exported r decorators else plainDeclaration r decorators

end Untype.Grammar
