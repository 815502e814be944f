-- Enums as objects: the values of the members are worked out, and the enum
-- becomes a function that fills an object with them.
import Untype.Number.Bits
import Untype.Number.Decimal
import Untype.Number.Literal
import Untype.Number.Word
import Untype.Text.Quoted
import Untype.Text.Writer
import Untype.Token.StringValue
import Untype.Tree.Node

namespace Untype.Erasure

open Text

/-! ## Constants -/

/-- The value of a member that is known beforehand. -/
inductive Constant where
  | number (value : Number)
  | string (value : String)

namespace Constant

def unary? (operator : TokenKind) (a : Number) : Option Number :=
  match operator with
  | .plus => some a
  | .minus => some a.neg
  | .tilde => some a.complement
  | _ => none

def arithmetic? (operator : TokenKind) (a b : Number) : Option Number :=
  match operator with
  | .plus => some (a.add b)
  | .minus => some (a.sub b)
  | .asterisk => some (a.mul b)
  | .slash => some (a.div b)
  | .percent => some (a.rem b)
  | .asteriskAsterisk => some (a.pow b)
  | .lessThanLessThan => some (a.shiftLeft b)
  | .greaterThanGreaterThan => some (a.shiftRight b)
  | .greaterThanGreaterThanGreaterThan => some (a.shiftRightUnsigned b)
  | .ampersand => some (a.bitAnd b)
  | .bar => some (a.bitOr b)
  | .caret => some (a.bitXor b)
  | _ => none

/-- How a constant reads as a part of a string. -/
def text : Constant → String
  | number value => value.text
  | string value => value

/-- An operator between two constants. Strings can only be put together. -/
def binary? (operator : TokenKind) (a b : Constant) : Option Constant :=
  match a, b with
  | number a, number b => (arithmetic? operator a b).map number
  | a, b => if operator == .plus then some (string (a.text ++ b.text)) else none

end Constant

/-- The enum whose members are worked out: its name and the members known so far. -/
structure KnownMembers where
  enum : String
  values : List (String × Constant) := []

/-- The value of an expression, if it is made of literals and known members. -/
def constant? (source : String) (known : KnownMembers) : Node → Option Constant
  | .leaf token =>
    let text := slice source token.span.start token.span.stop
    match token.kind with
    | .numericLiteral => (Number.ofLiteral? text).map .number
    | .stringLiteral | .noSubstitutionTemplateLiteral => (stringValue? text).map .string
    | .identifier =>
      if text == "Infinity" then some (.number (.infinity false))
      else if text == "NaN" then some (.number (.nan false))
      else known.values.lookup text
    | _ => none
  | .branch .parenthesizedExpression _ _ (_ :: inner :: _) => constant? source known inner
  | .branch .prefixUnaryExpression _ _ (operator :: operand :: _) =>
    match operator.token?, constant? source known operand with
    | some operator, some (.number value) => (Constant.unary? operator value).map .number
    | _, _ => none
  | .branch .binaryExpression _ _ (left :: operator :: right :: _) =>
    match operator.token?, constant? source known left, constant? source known right with
    | some operator, some left, some right => Constant.binary? operator left right
    | _, _, _ => none
  | .branch .propertyAccessExpression _ _ (object :: rest) =>
    if object.text source == known.enum then
      rest.getLast?.bind fun property => known.values.lookup (property.text source)
    else
      none
  | .branch .elementAccessExpression _ _ (object :: _ :: key :: _) =>
    if object.text source == known.enum then
      match constant? source known key with
      | some (.string key) => known.values.lookup key
      | _ => none
    else
      none
  | _ => none

/-! ## Members -/

/-- The value of a member: a constant, or the text of an expression. -/
inductive MemberValue where
  | constant (value : Constant)
  | computed (text : String)

/-- The key of a member in the object. Computed keys have none. -/
def memberKey? (source : String) (member : Node) : Option String :=
  match member.children.head? with
  | some (.leaf token) =>
    let text := slice source token.span.start token.span.stop
    match token.kind with
    | .identifier => some text
    | .stringLiteral | .noSubstitutionTemplateLiteral => stringValue? text
    | .numericLiteral => (Number.ofLiteral? text).map Number.text
    | _ => none
  | _ => none

/-- The expression can be moved as it is: it names no member and has no type syntax. -/
def isMovable (source : String) (keys : List String) (expression : Node) : Bool :=
  expression.descendants.all fun node =>
    !(node.name? source).any keys.contains && !node.label.satisfies NodeKind.isTypeOnly

/-- The value of a member without an initializer that follows a member of this value. -/
def MemberValue.successor? : MemberValue → Option Number
  | .constant (.number value) => some (value.add (Number.ofInt 1))
  | _ => none

/-- The members with their values, `next` being the value of the first one if it has no
initializer. There are none if a member depends on one that is computed. -/
def memberValues? (source : String) (keys : List String) (known : KnownMembers)
    (next : Option Number) : List (Node × String) → Option (List (String × MemberValue))
  | [] => some []
  | (member, key) :: rest => do
    let value ← match member.children.drop 2 with
      | [] => next.map fun value => MemberValue.constant (.number value)
      | initializer :: _ =>
        match constant? source known initializer with
        | some value => some (.constant value)
        | none =>
          if isMovable source keys initializer then
            some (.computed (initializer.text source))
          else
            none
    let known := match value with
      | .constant constant => { known with values := (key, constant) :: known.values }
      | .computed _ => known
    return (key, value) :: (← memberValues? source keys known value.successor? rest)

/-! ## The object -/

/-- The statement that stores a member. Numbers and computed values can be looked up both
ways. -/
def memberLine (name key : String) : MemberValue → String
  | .constant (.string value) => name ++ "[" ++ quote key ++ "] = " ++ quote value ++ ";"
  | .constant (.number value) => bothWays value.text
  | .computed text => bothWays text
where
  bothWays (value : String) : String :=
    name ++ "[" ++ name ++ "[" ++ quote key ++ "] = " ++ value ++ "] = " ++ quote key ++ ";"

def enumText (name : String) (exported : Bool) (members : List (String × MemberValue))
    (baseIndent unit : String) : String :=
  let w : Writer := { baseIndent, unit }
  let w := if exported then w.write "export " else w
  let w := (w.write ("var " ++ name ++ ";")).line
  let w := (w.write ("(function (" ++ name ++ ") \x7b")).indent
  let w := members.foldl (fun w (key, value) => w.line.write (memberLine name key value)) w
  (w.dedent.line.write ("\x7d)(" ++ name ++ " || (" ++ name ++ " = \x7b\x7d));")).output

/-- An enum as text, unless a member depends on one that is computed. -/
def enumText? (source : String) (declaration : Node) (baseIndent unit : String) :
    Option String := do
  let name ← declaration.children.findSome? (Node.name? source)
  let members := declaration.children.filter (Node.isKind .enumMember)
  let keys ← members.mapM (memberKey? source)
  let values ← memberValues? source keys { enum := name } (some (.zero false)) (members.zip keys)
  return enumText name (declaration.hasToken .exportKeyword) values baseIndent unit

end Untype.Erasure
