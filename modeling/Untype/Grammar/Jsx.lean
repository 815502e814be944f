-- Elements.
import Untype.Grammar.Names

namespace Untype.Grammar

open Untype.Grammar.Parser

/-- A name that may have hyphens. -/
def jsxName : Parser Node := do
  moveBy (·.rescanJsxName)
  if ← tokenIs .identifier then eat else fail .nameExpected

/-- A name after another and a colon, if the colon is next. -/
def jsxNamespaced (name : Node) : Parser Node := do
  let colon ← eat
  let member ← jsxName
  return .group .jsxNamespacedName [name, colon, member]

/-- `.Item`, as often as it is there. -/
def jsxMembers (first : Node) : Parser Node :=
  loopFrom first fun owner => do
    if ← tokenIs .dot then
      let dot ← eat
      let member ← identifierName
      return .again (.group .propertyAccessExpression [owner, dot, member])
    else
      return .finish owner

/-- The name of an element: `div`, `my-part`, `Foo.Bar`, `this.Item`, `svg:rect`. -/
def jsxTagName : Parser Node := do
  if ← tokenIs .thisKeyword then
    jsxMembers (← eat)
  else
    let name ← jsxName
    if ← tokenIs .colon then jsxNamespaced name else jsxMembers name

/-- Takes a token after which an expression goes on, or the children of an element. -/
def eatBefore (inExpression : Bool) : Parser Node := if inExpression then eat else eatJsx

/-- `{e}`, `{...e}` or an empty pair of braces. -/
def jsxExpression (r : Rules) (inExpression : Bool) : Parser Node := do
  let opening ← eat
  let value ← do
    if ← tokenIs .closeBrace then
      pure []
    else
      let dots ← optional .dotDotDot
      let value ← r .expression
      pure (dots ++ [value])
  if ← tokenIs .closeBrace then
    let closing ← eatBefore inExpression
    return .group .jsxExpression (opening :: value ++ [closing])
  else
    failExpected "\x7d"

def jsxAttributeValue (r : Rules) : Parser Node := do
  match ← kind with
  | .stringLiteral =>
    moveBy (·.rescanJsxValue)
    eat
  | .openBrace => jsxExpression r true
  | .lessThan => r (.jsxElement true)
  | _ => fail .attributeValueExpected

/-- `name`, `name=value` or `{...e}`. -/
def jsxAttribute (r : Rules) : Parser Node := do
  if ← tokenIs .openBrace then
    let opening ← eat
    let dots ← expect .dotDotDot
    let value ← r .expression
    let closing ← expect .closeBrace
    return .group .jsxSpreadAttribute [opening, dots, value, closing]
  else
    let name ← jsxName
    let name ← if ← tokenIs .colon then jsxNamespaced name else pure name
    if ← tokenIs .equals then
      let equals ← eat
      let value ← jsxAttributeValue r
      return .group .jsxAttribute [name, equals, value]
    else
      return .group .jsxAttribute [name]

/-- The `>` that ends an element. -/
def jsxEnd (inExpression : Bool) : Parser Node := do
  if ← tokenIs .greaterThan then eatBefore inExpression else failExpected ">"

/-- `<Tag a="b">`, `<Tag />` or `<>`. -/
def jsxOpening (r : Rules) (inExpression : Bool) : Parser Node := do
  let opening ← expect .lessThan
  if ← tokenIs .greaterThan then
    let closing ← eatJsx
    return .group .jsxOpeningFragment [opening, closing]
  else
    let name ← jsxTagName
    let types ← parseIf (·.kind == .lessThan) (typeArguments r)
    let attributes ← manyUntil (·.isOneOf [.greaterThan, .slash, .endOfFile]) (jsxAttribute r)
    let front := opening :: name :: types ++ attributes
    if ← tokenIs .greaterThan then
      let closing ← eatJsx
      return .group .jsxOpeningElement (front ++ [closing])
    else
      let slash ← expect .slash
      let closing ← jsxEnd inExpression
      return .group .jsxSelfClosingElement (front ++ [slash, closing])

def jsxChildren (r : Rules) : Parser (List Node) :=
  loopFrom [] fun seen => do
    match ← kind with
    | .lessThanSlash => return .finish seen.reverse
    | .jsxText => return .again ((← eatJsx) :: seen)
    | .openBrace => return .again ((← jsxExpression r false) :: seen)
    | .lessThan => return .again ((← r (.jsxElement false)) :: seen)
    | _ => failExpected "</"

def jsxElement (r : Rules) (inExpression : Bool) : Parser Node := do
  let opening ← jsxOpening r inExpression
  match opening.kind? with
  | some .jsxOpeningElement =>
    let children ← jsxChildren r
    let slash ← eat
    let name ← jsxTagName
    let stop ← jsxEnd inExpression
    return .group .jsxElement
      (opening :: children ++ [.group .jsxClosingElement [slash, name, stop]])
  | some .jsxOpeningFragment =>
    let children ← jsxChildren r
    let slash ← eat
    let stop ← jsxEnd inExpression
    return .group .jsxFragment (opening :: children ++ [.group .jsxClosingFragment [slash, stop]])
  | _ => return opening

end Untype.Grammar
