-- Parsers: functions that read tokens off a scanner, in a context, and
-- answer with a result, a failure, or word that they came to no end.
import Untype.Text.Lines
import Untype.Token.Scanner
import Untype.Tree.Node

namespace Untype.Grammar

/-! ## Failures -/

inductive Cause where
  | expected (what found : String)
  | expectedBeforeEnd (what : String)
  | nameExpected
  | expressionExpected
  | declarationExpected
  | attributeValueExpected
  | lineBreakForbidden
  | unaryBeforePower
  | typeArgumentsMisplaced
  | constraintOfConditional
  | tooDeep
deriving DecidableEq, Repr

def Cause.message : Cause → String
  | .expected what found => "'" ++ what ++ "' expected, found '" ++ found ++ "'."
  | .expectedBeforeEnd what => "'" ++ what ++ "' expected but reached end of file."
  | .nameExpected => "Identifier expected."
  | .expressionExpected => "Expression expected."
  | .declarationExpected => "Declaration or statement expected."
  | .attributeValueExpected => "JSX attribute value expected."
  | .lineBreakForbidden => "Line break not permitted here."
  | .unaryBeforePower =>
    "An unary expression cannot appear on the left-hand side of a '**' expression."
  | .typeArgumentsMisplaced => "Type arguments cannot be followed by this token."
  | .constraintOfConditional => "Constraint belongs to the enclosing conditional type."
  | .tooDeep => "Maximum nesting depth exceeded."

/-- A cause and the offset of the token at which it showed. -/
structure Failure where
  pos : Nat
  cause : Cause
deriving DecidableEq, Repr

/-! ## Context and state -/

/-- What it means that an arrow function was tried at a place before, in vain. -/
inductive Recall where
  /-- It is not tried there again. -/
  | trusted
  /-- Nothing: it is tried there as anywhere. -/
  | ignored
  /-- It is tried there again, and the reading comes to no end if it is found after all. -/
  | doubted
deriving DecidableEq, Repr

/-- What the place in the grammar decides. -/
structure Context where
  /-- `<` may open an element. -/
  jsx : Bool
  /-- How often a loop may turn at most: more than the text has characters. -/
  budget : Nat
  /-- `in` ends the expression, as in the head of a loop. -/
  disallowIn : Bool := false
  generator : Bool := false
  async : Bool := false
  /-- Between `?` and `:` of a conditional expression, whose colon it is. -/
  conditionalTrue : Bool := false
  /-- `extends` does not make a conditional type. -/
  noConditionalTypes : Bool := false
  /-- After `@`, where a bracket does not go on with the expression. -/
  decorator : Bool := false
  /-- What is made of arrow functions that were tried in vain. -/
  trust : Recall := .trusted
  /-- How many nested constructs are open. -/
  depth : Nat := 0

/-- The scanner at the current token, and where an arrow function was tried in vain. -/
structure State where
  scanner : Scanner
  failedArrows : List Nat
deriving DecidableEq

/-- The answer of a parser, and the state in which it was given. -/
inductive Reply (α : Type) where
  | done (value : α) (state : State)
  | failed (failure : Failure) (state : State)
  | stalled

def Parser (α : Type) : Type := Context → State → Reply α

namespace Parser

/-- Answers without reading. -/
@[always_inline, inline]
def succeed {α : Type} (value : α) : Parser α := fun _ state => .done value state

/-- Goes on from the answer of a parser. -/
@[always_inline, inline]
def andThen {α β : Type} (p : Parser α) (next : α → Parser β) : Parser β := fun context state =>
  match p context state with
  | .done value state => next value context state
  | .failed failure state => .failed failure state
  | .stalled => .stalled

instance : Monad Parser where
  pure := succeed
  bind := andThen

def fail {α : Type} (cause : Cause) : Parser α := fun _ state =>
  .failed ⟨state.scanner.start.offset, cause⟩ state

/-- Comes to no end. -/
def stall {α : Type} : Parser α := fun _ _ => .stalled

/-- Tries a parser. If it fails, nothing is read, and only what was learned about arrow functions
is kept. -/
def attempt {α : Type} (p : Parser α) : Parser (Option α) := fun context state =>
  match p context state with
  | .done value state => .done (some value) state
  | .failed _ stop => .done none { stop with scanner := state.scanner }
  | .stalled => .stalled

def context : Parser Context := fun context state => .done context state

def within {α : Type} (change : Context → Context) (p : Parser α) : Parser α :=
  fun context state => p (change context) state

/-- How many constructs may be open. -/
def maxDepth : Nat := 500

def nested {α : Type} (p : Parser α) : Parser α := fun context state =>
  if maxDepth ≤ context.depth then fail .tooDeep context state
  else p { context with depth := context.depth + 1 } state

def arrowFailedAt (offset : Nat) : Parser Bool := fun _ state =>
  .done (state.failedArrows.contains offset) state

def rememberFailedArrow (offset : Nat) : Parser Unit := fun _ state =>
  .done () { state with failedArrows := offset :: state.failedArrows }

/-- Tries an arrow function at this offset, unless that was done before in vain. -/
def attemptArrow {α : Type} (offset : Nat) (arrow : Parser α) : Parser (Option α) := do
  let failed ← arrowFailedAt offset
  let trust := (← context).trust
  if failed && trust == .trusted then
    return none
  else
    match ← attempt arrow with
    | some value => if failed && trust == .doubted then stall else return some value
    | none =>
      rememberFailedArrow offset
      return none

/-! ## Tokens -/

/-- A question about the current token and those after it. -/
def ask {α : Type} (question : Scanner → α) : Parser α := fun _ state =>
  .done (question state.scanner) state

def kind : Parser TokenKind := ask (·.kind)

def tokenIs (kind : TokenKind) : Parser Bool := ask (·.kind == kind)

/-- Goes on to the token that `advance` finds. -/
def moveBy (advance : Scanner → Scanner) : Parser Unit := fun _ state =>
  .done () { state with scanner := advance state.scanner }

def leafOf (kind : TokenKind) (s : Scanner) : Node :=
  .leaf { kind, span := ⟨s.full.offset, s.start.offset, s.here.offset⟩ }

def eatAs (kind : TokenKind) : Parser Node := fun _ state =>
  .done (leafOf kind state.scanner) { state with scanner := state.scanner.scan }

def eat : Parser Node := fun _ state =>
  .done (leafOf state.scanner.kind state.scanner) { state with scanner := state.scanner.scan }

/-- Takes the current token and goes on among the children of an element. -/
def eatJsx : Parser Node := fun _ state =>
  .done (leafOf state.scanner.kind state.scanner) { state with scanner := state.scanner.scanJsx }

def failExpected {α : Type} (what : String) : Parser α := do
  let s ← ask id
  if s.kind == .endOfFile then fail (.expectedBeforeEnd what)
  else fail (.expected what s.text)

/-- Takes a token of this kind, or fails. -/
def expect (kind : TokenKind) : Parser Node := do
  if ← tokenIs kind then eat else failExpected (kind.text?.getD "token")

def optional (kind : TokenKind) : Parser (List Node) := do
  if ← tokenIs kind then return [← eat] else return []

/-- Takes the current token, if the question is answered with yes. -/
def eatIf (question : Scanner → Bool) : Parser (List Node) := do
  if ← ask question then return [← eat] else return []

/-- Runs a parser for one node, if the question is answered with yes. -/
def parseIf (question : Scanner → Bool) (p : Parser Node) : Parser (List Node) := do
  if ← ask question then return [← p] else return []

/-- Takes the semicolon at the end of a statement. A brace, the end of the text or a line
break stands for it. -/
def semicolon : Parser (List Node) := do
  let s ← ask id
  if s.kind == .semicolon then return [← eat]
  else if s.kind == .closeBrace || s.kind == .endOfFile || s.afterLineBreak then return []
  else failExpected ";"

/-! ## Loops -/

/-- What a turn of a loop decides. -/
inductive Turn (α β : Type) where
  | again (state : α)
  | finish (result : β)

/-- Turns a loop at most so often. -/
def iterate {α β : Type} (turn : α → Parser (Turn α β)) : Nat → α → Parser β
  | 0, _ => stall
  | fuel + 1, state => do
    match ← turn state with
    | .again state => iterate turn fuel state
    | .finish result => return result

def loopFrom {α β : Type} (state : α) (turn : α → Parser (Turn α β)) : Parser β := do
  iterate turn (← context).budget state

def manyUntil (stop : Scanner → Bool) (item : Parser Node) : Parser (List Node) :=
  loopFrom [] fun seen => do
    if ← ask stop then return .finish seen.reverse
    else return .again ((← item) :: seen)

def manyWhile (go : Scanner → Bool) (item : Parser Node) : Parser (List Node) :=
  manyUntil (fun s => !go s) item

/-- Items with commas between them. A last comma may stand before `close`. -/
def commaList (close : TokenKind) (item : Parser Node) : Parser (List Node) :=
  loopFrom [] fun seen => do
    if ← tokenIs close then
      return .finish seen.reverse
    let one ← item
    if ← tokenIs .comma then
      let comma ← eat
      return .again (comma :: one :: seen)
    else
      return .finish (one :: seen).reverse

/-- The same with places that may stay empty. -/
def sparseList (close : TokenKind) (item : Parser Node) : Parser (List Node) :=
  loopFrom [] fun seen => do
    if ← tokenIs close then
      return .finish seen.reverse
    if ← tokenIs .comma then
      let comma ← eat
      return .again (comma :: seen)
    let one ← item
    if ← tokenIs .comma then
      let comma ← eat
      return .again (comma :: one :: seen)
    else
      return .finish (one :: seen).reverse

def commaItems (item : Parser Node) : Parser (List Node) :=
  loopFrom [] fun seen => do
    let one ← item
    if ← tokenIs .comma then
      let comma ← eat
      return .again (comma :: one :: seen)
    else
      return .finish (one :: seen).reverse

end Parser

/-! ## Recursion -/

/-- The productions through which the grammar comes back to itself. -/
inductive Production where
  | statement
  | expression
  | assignment
  /-- An expression of operators that bind tighter than the given strength. -/
  | binary (strength : Nat)
  | unaryOperand
  | leftHandSide
  | primary
  | bindingName
  | type
  | typeOperator
  /-- An element; the flag says that an expression goes on after it. -/
  | jsxElement (inExpression : Bool)
deriving DecidableEq, Repr

abbrev Rules := Production → Parser Node

end Untype.Grammar
