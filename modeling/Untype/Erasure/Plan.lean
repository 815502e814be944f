-- What happens to each child of a node: it is kept, goes, or gives way to
-- other text.
import Untype.Diagnostic
import Untype.Erasure.Enums
import Untype.Erasure.Fields
import Untype.Erasure.Gap
import Untype.Erasure.Namespaces
import Untype.Erasure.Policy

namespace Untype.Erasure

/-- What does not change while the types of a file are erased. -/
structure Setting where
  source : String
  options : Options
  usage : Usage
  /-- The indentation of one level. -/
  unit : String

/-- Where the first operand of an expression stands. -/
inductive OperandPlace where
  /-- At the start of a statement or of the body of an arrow function. -/
  | statementStart
  /-- After `return`, `throw` or `yield`, where a line break would end the statement. -/
  | afterKeyword
deriving DecidableEq, Repr

/-- What a node has to know from its parent. -/
inductive Task where
  | none
  /-- It starts where an operand may be misread. -/
  | operand (place : OperandPlace)
  /-- Its bindings may be dropped. -/
  | imports
  /-- Its specifiers may be dropped, those of types only if it is no `reexport`. -/
  | exports (reexport : Bool)
  /-- It becomes a variable and a function. -/
  | function (lowering : Lowering)
  /-- It is the body of such a function, which fills the object `name`. -/
  | functionBody (name : String)
  /-- It is exported by an assignment after it. -/
  | assigned
  /-- Its constants are stored in the object `owner` as well. -/
  | constants (owner : String)
  /-- It is the body of a constructor with fields. -/
  | fields (plan : FieldPlan)
  /-- It gets this trivia. -/
  | trivia (text : String)
deriving DecidableEq, Repr

namespace Task

def dropsExport : Task → Bool
  | assigned => true
  | constants _ => true
  | function lowering => lowering.nested
  | _ => false

/-- The node is put into plainer words. -/
def lowers : Task → Bool
  | function _ => true
  | _ => false

def dress (task : Task) (node : Node) : Node :=
  match task with
  | trivia text => (node.setTrivia text).markDirty
  | _ => node

end Task

inductive Action where
  /-- It stays, between inserted pieces. -/
  | keep (task : Task) (before after : List Inserted)
  | replace (piece : Inserted)
  | remove (removal : Removal)
deriving DecidableEq, Repr

namespace Action

def stay : Action := .keep .none [] []

def isKeep : Action → Bool
  | keep _ _ _ => true
  | _ => false

def followedBy (pieces : List Inserted) : Action → Action
  | keep task before after => .keep task before (after ++ pieces)
  | action => action

end Action

structure Verdict where
  action : Action
  finding : Option Finding := none
deriving DecidableEq, Repr

/-- A node whose children are judged. -/
structure Scope where
  kind : NodeKind
  span : Span
  task : Task
  children : List Node

def excerpt (text : String) : String := String.ofList (text.toList.take 60)

def findingAt (node : Node) (problem : Problem) : Finding :=
  ⟨node.span.start, node.span.stop - node.span.start, problem⟩

/-- Text in the place of a token, with the trivia of the token. -/
def replaceToken (source : String) (token : Node) (text : String) : Action :=
  .replace { anchor := token.span.pos, text, trivia := some (token.leadingTrivia source) }

/-! ## Imports and exports -/

/-- The binding of an import goes: it is marked as a type, or only types use it. -/
def dropsBinding (s : Setting) (binding : Node) : Bool :=
  (bindingName? s.source binding).any fun name =>
    isMarkedType binding || (s.options.elideImports && s.usage.isTypeOnlyBinding name)

def importAction (s : Setting) (statement : Node) : Action :=
  let bindings := importBindings statement
  if isTypeImport statement then .remove .unit
  else if bindings.isEmpty then .stay
  else if bindings.all (dropsBinding s) then .remove .unit
  else .keep .imports [] []

/-- The specifier of an export goes: it is marked as a type, or names one of the file. -/
def dropsSpecifier (s : Setting) (reexport : Bool) (specifier : Node) : Bool :=
  specifier.isKind .exportSpecifier &&
    (specifier.hasToken .typeKeyword ||
      (!reexport &&
        ((specifier.children.find? fun child => !child.isToken .typeKeyword).bind
          (Node.name? s.source)).any s.usage.isTypeOnlyDeclaration))

def exportAction (s : Setting) (statement : Node) : Action :=
  if statement.children[1]?.any (Node.isToken .typeKeyword) then
    .remove .unit
  else
    match statement.child? .namedExports with
    | none => .stay
    | some named =>
      let reexport := statement.hasToken .fromKeyword
      let specifiers := named.children.filter (Node.isKind .exportSpecifier)
      if specifiers.isEmpty then .stay
      else if specifiers.all (dropsSpecifier s reexport) then .remove .unit
      else .keep (.exports reexport) [] []

/-! ## Statements -/

/-- The object that gets the exported statement as a property. -/
def exportOwner? (scope : Scope) (statement : Node) : Option String :=
  match scope.task with
  | .functionBody name =>
    if statement.hasToken .exportKeyword && !isTypeOnlyStatement statement then some name else none
  | _ => none

/-- The assignment of a function or class to the object that exports it. -/
def exportAssignment (s : Setting) (owner : String) (statement : Node) : List Inserted :=
  match declaredName? s.source statement with
  | some name =>
    [{ anchor := statement.span.stop
       text := owner ++ "." ++ name ++ " = " ++ name ++ ";"
       trivia := some ("\n" ++ Text.lineIndent s.source statement.span.start) }]
  | none => []

/-- A statement that stays. In the body of a namespace, what is exported becomes a property. -/
def keepStatement (s : Setting) (scope : Scope) (statement : Node) : Action :=
  match exportOwner? scope statement with
  | none => .stay
  | some owner =>
    match statement.kind? with
    | some .functionDeclaration | some .classDeclaration =>
      .keep .assigned [] (exportAssignment s owner statement)
    | some .variableStatement => .keep (.constants owner) [] []
    | _ => .keep .assigned [] []

/-- Namespaces can be put into plainer words here: the statement is in no namespace, or in one
that is. -/
def allowsLowering (scope : Scope) : Bool :=
  scope.kind != .moduleBlock ||
    match scope.task with
    | .functionBody _ => true
    | _ => false

def namespaceVerdict (s : Setting) (scope : Scope) (statement : Node) : Verdict :=
  if isTypeOnlyModule statement.children then
    ⟨.remove .unit, none⟩
  else if allowsLowering scope && isLowerable s.source scope.children statement then
    let owner := exportOwner? scope statement
    ⟨.keep (.function (lowering s.source owner statement)) [] [], none⟩
  else
    let name := (declaredName? s.source statement).getD ""
    ⟨.stay, some (findingAt statement (.namespaceKept (excerpt name)))⟩

def enumVerdict (s : Setting) (statement : Node) : Verdict :=
  match enumText? s.source statement (Text.lineIndent s.source statement.span.start) s.unit with
  | some text =>
    ⟨.replace
      { anchor := statement.span.pos
        text
        lowered := true
        trivia := some (statement.firstLeaf.leadingTrivia s.source) }, none⟩
  | none =>
    let name := (declaredName? s.source statement).getD ""
    ⟨.stay, some (findingAt statement (.enumKept (excerpt name)))⟩

def statementVerdict (s : Setting) (scope : Scope) (statement : Node) : Verdict :=
  let removed : Verdict := ⟨.remove .unit, none⟩
  match statement.kind? with
  | some .interfaceDeclaration | some .typeAliasDeclaration | some .namespaceExportDeclaration =>
    removed
  | kind =>
    if statement.hasToken .declareKeyword then
      removed
    else
      match kind with
      | some .functionDeclaration =>
        if (statement.child? .block).isNone then removed
        else ⟨keepStatement s scope statement, none⟩
      | some .moduleDeclaration => namespaceVerdict s scope statement
      | some .importDeclaration => ⟨importAction s statement, none⟩
      | some .importEqualsDeclaration =>
        let name := (declaredName? s.source statement).getD ""
        if statement.hasToken .typeKeyword then removed
        else if s.options.elideImports && s.usage.isTypeOnlyBinding name then removed
        else ⟨.stay, none⟩
      | some .exportDeclaration => ⟨exportAction s statement, none⟩
      | some .exportAssignment =>
        if (statement.children[2]?.bind (Node.name? s.source)).any
            s.usage.isTypeOnlyDeclaration then removed
        else ⟨.stay, none⟩
      | some .enumDeclaration => enumVerdict s statement
      | _ => ⟨keepStatement s scope statement, none⟩

/-! ## Members of classes -/

/-- A field that only a type is known of. -/
def isBareField (member : Node) : Bool :=
  !member.hasToken .equals &&
    ((member.child? .annotatedType).isSome || member.hasToken .exclamation ||
      member.hasToken .question) &&
    !(member.hasToken .privateIdentifier || (member.child? .decorator).isSome)

def classAction (s : Setting) (child : Node) : Action :=
  let memberAction (isGone : Bool) : Action :=
    if child.hasToken .abstractKeyword || child.hasToken .declareKeyword || isGone then
      .remove .unit
    else
      .stay
  match child.label with
  | .token kind => if kind.isTypeModifier then .remove .modifier else .stay
  | .branch .heritageClause =>
    if child.hasToken .implementsKeyword then .remove .inside else .stay
  | .branch .indexSignature => .remove .unit
  | .branch .methodDeclaration => memberAction (child.child? .block).isNone
  | .branch .classConstructor => memberAction (child.child? .block).isNone
  | .branch .getAccessor => memberAction (child.child? .block).isNone
  | .branch .setAccessor => memberAction (child.child? .block).isNone
  | .branch .propertyDeclaration =>
    memberAction (!s.options.keepBareFields && isBareField child)
  | _ => .stay

/-! ## Operands -/

/-- The first child of such an expression stands where the expression starts. -/
def startsWithOperand : NodeKind → Bool
  | .binaryExpression | .conditionalExpression | .callExpression | .propertyAccessExpression
  | .elementAccessExpression | .taggedTemplateExpression | .postfixUnaryExpression
  | .asExpression | .satisfiesExpression | .nonNullExpression | .instantiationExpression => true
  | _ => false

/-- Without the type in front of it, the operand would be misread in this place: as a block or
a declaration, or as a statement of its own. -/
def isMisread (source : String) (place : OperandPlace) (operand : Node) : Bool :=
  match place with
  | .statementStart =>
    operand.firstLeaf.isToken .openBrace || operand.firstLeaf.isToken .functionKeyword ||
      operand.firstLeaf.isToken .classKeyword
  | .afterKeyword =>
    !operand.isKind .typeAssertionExpression &&
      Text.hasLineBreak (operand.firstLeaf.leadingTrivia source)

/-- The operand of a type in angle brackets, in parentheses where it would be misread. -/
def operandAction (source : String) (task : Task) (operand : Node) : Action :=
  match task with
  | .operand place =>
    if isMisread source place operand then
      let anchor := operand.span.pos
      .keep .none [{ anchor, text := "(" }] [{ anchor, text := ")" }]
    else
      .keep (.operand place) [] []
  | _ => .stay

/-! ## All children -/

/-- What a kept child has to know. -/
def childTask (s : Setting) (scope : Scope) (index : Nat) (child : Node) : Task :=
  let isLast := index + 1 == scope.children.length
  match scope.kind with
  | .classConstructor =>
    let names := fieldNames s.source scope.children
    if child.isKind .block && !names.isEmpty then
      .fields (fieldPlan s.source s.unit scope.span.start names child)
    else
      .none
  | .expressionStatement => if index == 0 then .operand .statementStart else .none
  | .arrowFunction => if isLast && !child.isKind .block then .operand .statementStart else .none
  | .returnStatement | .throwStatement | .yieldExpression =>
    if scope.children.findIdx? (fun node => node.token?.isNone) == some index then
      .operand .afterKeyword
    else
      .none
  | kind =>
    match scope.task with
    | .operand place => if startsWithOperand kind && index == 0 then .operand place else .none
    | .imports =>
      if child.isKind .importClause || child.isKind .namedImports then .imports else .none
    | .exports reexport => if child.isKind .namedExports then .exports reexport else .none
    | .constants owner =>
      if child.isKind .variableDeclarationList || child.isKind .variableDeclaration then
        .constants owner
      else
        .none
    | .fields plan =>
      match plan.closing with
      | some text => if isLast then .trivia text else .none
      | none => .none
    | _ => .none

/-- What happens to a part of a namespace that becomes a variable and a function. -/
def functionAction (source : String) (lowering : Lowering) (child : Node) : Action :=
  match child.label with
  | .token .namespaceKeyword => replaceToken source child "var"
  | .token .moduleKeyword => replaceToken source child "var"
  | .token .identifier =>
    .keep .none []
      [{ anchor := child.span.stop
         text := ";\n" ++ lowering.indent ++ "(function (" ++ lowering.name ++ ")" }]
  | .branch .moduleBlock =>
    .keep (.functionBody lowering.name) []
      [{ anchor := child.span.stop, text := ")(" ++ lowering.argument ++ ");" }]
  | _ => .stay

def dropsAllBindings (s : Setting) (named : Node) : Bool :=
  let specifiers := named.children.filter (Node.isKind .importSpecifier)
  !specifiers.isEmpty && specifiers.all (dropsBinding s)

/-- What happens to a child that is no list of types and no annotated type. -/
def childVerdict (s : Setting) (scope : Scope) (index : Nat) (child : Node) : Verdict :=
  let stay : Action := .keep (childTask s scope index child) [] []
  let removeIf (condition : Bool) (removal : Removal) : Verdict :=
    ⟨if condition then .remove removal else stay, none⟩
  match policy scope.kind with
  | .statements => if child.token?.isSome then ⟨stay, none⟩ else statementVerdict s scope child
  | .classBody => ⟨classAction s child, none⟩
  | .member =>
    match child.token? with
    | some kind =>
      if kind.isTypeModifier then ⟨.remove .modifier, none⟩
      else removeIf (kind == .question || kind == .exclamation) .inside
    | none => ⟨stay, none⟩
  | .variableName => removeIf (child.isToken .exclamation) .inside
  | .parameters => removeIf (child.isKind .parameter && child.hasToken .thisKeyword) .unit
  | .assertion =>
    if index + 1 == scope.children.length then ⟨operandAction s.source scope.task child, none⟩
    else ⟨.remove .opening, none⟩
  | .cast => removeIf (index != 0) .inside
  | .importClause =>
    removeIf (scope.task == .imports &&
      (if child.isKind .namedImports then dropsAllBindings s child else dropsBinding s child)) .unit
  | .namedBindings =>
    match scope.task with
    | .imports => removeIf (dropsBinding s child) .unit
    | .exports reexport => removeIf (dropsSpecifier s reexport child) .unit
    | _ => ⟨stay, none⟩
  | .importEquals =>
    ⟨if child.isToken .importKeyword then replaceToken s.source child "const" else stay, none⟩
  | .exportAssignment =>
    if index == 0 && scope.children[1]?.any (Node.isToken .equals) then
      ⟨replaceToken s.source child "module.exports", none⟩
    else
      ⟨stay, none⟩
  | .arrow | .plain | .typeSyntax => ⟨stay, none⟩

/-- The child is the value of a constant that the object `owner` gets as well. -/
def constantOwner? (s : Setting) (scope : Scope) (index : Nat) : Option (String × String) :=
  match scope.kind, scope.task with
  | .variableDeclaration, .constants owner =>
    match constantOf? s.source scope.children with
    | some (name, position) => if position == index then some (owner, name) else none
    | none => none
  | _, _ => none

def verdict (s : Setting) (scope : Scope) (index : Nat) (child : Node) : Verdict :=
  match constantOwner? s scope index with
  | some (owner, name) =>
    let piece : Inserted :=
      { anchor := child.span.pos, text := owner ++ "." ++ name ++ " =", trivia := some " " }
    ⟨.keep .none [piece] [], none⟩
  | none =>
    if child.isToken .exportKeyword && scope.task.dropsExport then
      ⟨.remove .modifier, none⟩
    else if child.isKind .annotatedType then
      ⟨.remove (if policy scope.kind == .arrow then .silent else .inside), none⟩
    else if child.isKind .typeParameters then
      ⟨.remove (if policy scope.kind == .arrow then .opening else .inside), none⟩
    else if child.isKind .typeArguments then
      ⟨.remove .inside, none⟩
    else
      match scope.task with
      | .function lowering => ⟨functionAction s.source lowering child, none⟩
      | .fields plan =>
        let v := childVerdict s scope index child
        if index == plan.position then
          { v with action := v.action.followedBy plan.assignments }
        else
          v
      | _ => childVerdict s scope index child

/-! ## Commas -/

/-- Takes one comma away with each removed element: the one before it if that is still there,
else the one after it. Each action comes with whether its child is a comma, and `previous` is
the one before the first. -/
def dropCommas (previous : Option (Bool × Action)) : List (Bool × Action) → List (Bool × Action)
  | [] => previous.toList
  | (isComma, action) :: rest =>
    if action == .remove .unit && !isComma then
      match previous with
      | some (true, .keep _ _ _) =>
        (true, .remove .unit) :: dropCommas (some (isComma, action)) rest
      | _ =>
        match rest with
        | (true, .keep _ _ _) :: rest =>
          previous.toList ++ (isComma, action) :: dropCommas (some (true, .remove .unit)) rest
        | rest => previous.toList ++ dropCommas (some (isComma, action)) rest
    else
      previous.toList ++ dropCommas (some (isComma, action)) rest

def withoutCommas (children : List Node) (actions : List Action) : List Action :=
  (dropCommas none ((children.map (Node.isToken .comma)).zip actions)).map (·.2)

def verdicts (s : Setting) (scope : Scope) : List Verdict :=
  scope.children.mapIdx (verdict s scope)

/-- What happens to the children of a node, commas included. -/
def actions (scope : Scope) (verdicts : List Verdict) : List Action :=
  let actions := verdicts.map (·.action)
  if (policy scope.kind).holdsList then withoutCommas scope.children actions else actions

end Untype.Erasure
