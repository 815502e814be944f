-- The shapes of nodes: what the grammar puts under a node of some kind, as
-- far as the erasure rests on it.
import Untype.Erasure.Policy
import Untype.Grammar.Expressions
import Untype.Proofs.Runs

namespace Untype

open Untype.Grammar

variable {kind : NodeKind}

/-! ## Shapes -/

/-- A list of types or a type with its colon: what goes wherever it stands. -/
def NodeKind.isTypePart : NodeKind → Bool
  | .annotatedType | .typeParameters | .typeArguments => true
  | _ => false

/-- An expression that stands for its operand at run time. -/
def NodeKind.isCast : NodeKind → Bool
  | .asExpression | .satisfiesExpression | .nonNullExpression | .instantiationExpression
  | .typeAssertionExpression => true
  | _ => false

/-- An expression. -/
def NodeKind.isOperand : NodeKind → Bool
  | .binaryExpression | .conditionalExpression | .callExpression | .propertyAccessExpression
  | .elementAccessExpression | .taggedTemplateExpression | .postfixUnaryExpression
  | .asExpression | .satisfiesExpression | .nonNullExpression | .instantiationExpression
  | .typeAssertionExpression | .parenthesizedExpression | .arrayLiteralExpression
  | .objectLiteralExpression | .functionExpression | .classExpression | .arrowFunction
  | .newExpression | .metaProperty | .templateExpression | .prefixUnaryExpression
  | .deleteExpression | .typeOfExpression | .voidExpression | .awaitExpression | .yieldExpression
  | .jsxElement | .jsxFragment | .jsxSelfClosingElement => true
  | _ => false

/-- An expression that no binary operator, condition, arrow or `yield` holds together. -/
def NodeKind.isUnary : NodeKind → Bool
  | .binaryExpression | .asExpression | .satisfiesExpression | .conditionalExpression
  | .arrowFunction | .yieldExpression => false
  | kind => kind.isOperand

theorem NodeKind.isOperand_of_isUnary (h : kind.isUnary) : kind.isOperand := by
  unfold isUnary at h
  split at h <;> first | cases h | exact h

theorem NodeKind.isOperand_of_isCast (h : kind.isCast) : kind.isOperand := by
  unfold isCast at h
  split at h <;> first | rfl | cases h

/-- A statement or a declaration. -/
def NodeKind.isStatement : NodeKind → Bool
  | .emptyStatement | .block | .variableStatement | .expressionStatement | .ifStatement
  | .doStatement | .whileStatement | .forStatement | .forInStatement | .forOfStatement
  | .continueStatement | .breakStatement | .returnStatement | .withStatement | .switchStatement
  | .labeledStatement | .throwStatement | .tryStatement | .debuggerStatement
  | .functionDeclaration | .classDeclaration | .interfaceDeclaration | .typeAliasDeclaration
  | .enumDeclaration | .moduleDeclaration | .importDeclaration | .importEqualsDeclaration
  | .exportDeclaration | .exportAssignment | .namespaceExportDeclaration => true
  | _ => false

/-- The kinds that clauses of heritage stand in. -/
def NodeKind.hasHeritage : NodeKind → Bool
  | .classDeclaration | .classExpression | .interfaceDeclaration => true
  | _ => false

/-- The keyword may stand before the word of a declaration. -/
def TokenKind.isModifierWord : TokenKind → Bool
  | .exportKeyword | .defaultKeyword | .declareKeyword | .abstractKeyword | .asyncKeyword
  | .constKeyword => true
  | _ => false

namespace Node

def isTypePart (node : Node) : Bool := node.label.satisfies NodeKind.isTypePart

def isCast (node : Node) : Bool := node.label.satisfies NodeKind.isCast

/-- The node is an expression, and no leaf. -/
def isExpression (node : Node) : Bool := node.label.satisfies NodeKind.isOperand

/-- The node is an expression, unless it is a leaf. -/
def isOperand (node : Node) : Bool := node.kind?.all NodeKind.isOperand

def isLeaf (node : Node) : Bool := node.kind?.isNone

/-- What may stand before the word of a declaration: a decorator or a modifier. -/
def isClassFront (node : Node) : Bool :=
  node.isKind .decorator || node.token?.any TokenKind.isModifierWord

/-- What a statement of this kind may start with: a token or a decorator, or what it consists of. -/
def startsStatement (kind : NodeKind) (first : Node) : Bool :=
  first.isLeaf || first.isKind .decorator || kind == .expressionStatement && first.isOperand ||
    kind == .variableStatement && first.isKind .variableDeclarationList

/-- The node is a statement and starts as one, unless it is a leaf. -/
def isStatement : Node → Bool
  | branch kind _ _ children => kind.isStatement && children.head?.any (startsStatement kind)
  | _ => true

/-- No line break stands between this token and the one after it. -/
def Unbroken (text : String) (word : Node) : Prop :=
  ∃ s, Scanner.Reached text s ∧ word.span.stop = s.here.offset ∧ s.scan.afterLineBreak = false

/-- The word `function` follows this token on its line. -/
def PrecedesFunction (text : String) (word : Node) : Prop :=
  ∃ s, Scanner.Reached text s ∧ word.span.stop = s.here.offset ∧ s.scan.kind = .functionKeyword ∧
    s.scan.afterLineBreak = false

/-- What starts with this leaf is no block, no declaration of a function or a class, and not
exported. -/
structure StartsExpression (text : String) (leaf : Node) : Prop where
  block : leaf.isToken .openBrace = false
  function : leaf.isToken .functionKeyword = false
  class' : leaf.isToken .classKeyword = false
  export' : leaf.isToken .exportKeyword = false
  async : leaf.isToken .asyncKeyword → ¬leaf.PrecedesFunction text

/-- The body of an arrow function: a block, or an expression that does not start like one. -/
def isArrowBody (body : Node) : Bool :=
  body.isKind .block || body.isOperand && !body.firstLeaf.isToken .openBrace

/-- The parameters of an arrow function: a list, or a name alone. -/
def IsParameters (node : Node) : Prop :=
  node.isKind .parameterList ∨ ∃ name, node = group .parameter [name] ∧ name.isToken .identifier

/-- What an arrow function starts with, up to its parameters. -/
structure HasArrowShape (text : String) (word types : List Node) (parameters : Node) : Prop where
  word : word = [] ∨ ∃ async, word = [async] ∧ async.isToken .asyncKeyword ∧ async.Unbroken text
  types : types = [] ∨ ∃ list, types = [list] ∧ list.isKind .typeParameters
  parameters : parameters.IsParameters

/-- An operand, if there is one, stands on the line of the word before it. -/
def StaysOnLine (text : String) (word : Node) (operand : List Node) : Prop :=
  operand = [] ∨ ∃ value, operand = [value] ∧ value.isOperand ∧ word.Unbroken text

/-- The operator between two operands. -/
def operator? : Node → Option TokenKind
  | branch .binaryExpression _ _ [_, sign, _] => sign.token?
  | _ => none

/-- A comma, an assignment, a condition, an arrow function or `yield`. -/
def isLoose (node : Node) : Bool :=
  match node.kind? with
  | some .conditionalExpression | some .arrowFunction | some .yieldExpression => true
  | some .binaryExpression =>
    node.operator?.any fun operator => operator == .comma || operator.isAssignmentOperator
  | _ => false

/-- `e as T` or `e satisfies T`. -/
def isAssertion (node : Node) : Bool :=
  node.isKind .asExpression || node.isKind .satisfiesExpression

/-- What `as` and `satisfies` take as their operand binds no looser than they do. -/
structure Asserted (operand : Node) : Prop where
  operator : ∀ inner, operand.operator? = some inner →
    bindingStrength .asKeyword ≤ bindingStrength inner
  tight : operand.isLoose = false

/-- An operator between the operands that its strength leaves to it. Operators of one strength group
to the left, and `**` groups to the right. -/
structure Grouped (operator : TokenKind) (left right : Node) : Prop where
  onLeft : ∀ inner, left.operator? = some inner →
    bindingStrength operator ≤ bindingStrength inner ∧
      ¬(operator = .asteriskAsterisk ∧ inner = .asteriskAsterisk)
  onRight : ∀ inner, right.operator? = some inner →
    bindingStrength operator < bindingStrength inner ∨
      operator = .asteriskAsterisk ∧ inner = .asteriskAsterisk
  assertion : right.isAssertion → bindingStrength operator < bindingStrength .asKeyword
  tight : left.isLoose = false ∧ right.isLoose = false

end Node

/-- What is asked of the children of a node of this kind. The clauses of heritage are set apart. -/
def NodeKind.HasShape (text : String) (kind : NodeKind) (children : List Node) : Prop :=
  match kind with
  | .binaryExpression =>
    ∃ left sign right operator, children = [left, sign, right] ∧ left.isOperand ∧
      sign.token? = some operator ∧
      (0 < bindingStrength operator ∧ Node.Grouped operator left right ∨
        operator = .comma ∨ operator.isAssignmentOperator)
  | .conditionalExpression | .propertyAccessExpression
  | .elementAccessExpression | .taggedTemplateExpression | .postfixUnaryExpression
  | .nonNullExpression =>
    ∃ operand rest, children = operand :: rest ∧ operand.isOperand
  | .asExpression | .satisfiesExpression =>
    ∃ operand rest, children = operand :: rest ∧ operand.isOperand ∧ operand.Asserted
  | .callExpression =>
    ∃ operand rest closing, children = operand :: rest ++ [closing] ∧ operand.isOperand ∧
      closing.isToken .closeParen
  | .instantiationExpression =>
    ∃ operand arguments, children = [operand, arguments] ∧ operand.isOperand ∧
      arguments.isKind .typeArguments
  | .typeAssertionExpression =>
    ∃ opening type closing operand, children = [opening, type, closing, operand] ∧
      opening.isToken .lessThan ∧ type.isTypePart = false ∧ closing.isLeaf ∧
      operand.isOperand
  | .parenthesizedExpression | .arrayLiteralExpression | .objectLiteralExpression
  | .functionExpression | .newExpression | .metaProperty | .templateExpression
  | .prefixUnaryExpression | .deleteExpression | .typeOfExpression | .voidExpression
  | .awaitExpression | .jsxSelfClosingElement | .jsxOpeningElement | .jsxOpeningFragment
  | .variableDeclarationList =>
    children.head?.any Node.isLeaf
  | .sourceFile => ∀ child ∈ children, child.isStatement
  | .parameterList => children.head?.any (Node.isToken .openParen)
  | .typeParameters => children.head?.any (Node.isToken .lessThan)
  | .jsxElement | .jsxFragment =>
    children.head?.any (fun opening =>
      opening.isKind .jsxOpeningElement || opening.isKind .jsxOpeningFragment)
  | .arrowFunction =>
    (∃ word types parameters rest, children = word ++ types ++ parameters :: rest ∧
      Node.HasArrowShape text word types parameters) ∧
      children.getLast?.any Node.isArrowBody
  | .yieldExpression =>
    ∃ word star operand, children = word :: star ++ operand ∧ word.isToken .yieldKeyword ∧
      (∀ part ∈ star, part.isToken .asterisk) ∧ Node.StaysOnLine text word operand
  | .returnStatement =>
    ∃ word operand stop, children = word :: operand ++ stop ∧ word.isToken .returnKeyword ∧
      (∀ part ∈ stop, part.isToken .semicolon) ∧ Node.StaysOnLine text word operand
  | .throwStatement =>
    ∃ word operand stop, children = word :: operand ++ stop ∧ word.isToken .throwKeyword ∧
      (∀ part ∈ stop, part.isToken .semicolon) ∧ Node.StaysOnLine text word operand
  | .importEqualsDeclaration =>
    ∃ front word modifier name sign value stop,
      children = front ++ word :: modifier ++ name :: sign :: value :: stop ∧
      (∀ part ∈ front, part.isClassFront) ∧ word.isToken .importKeyword ∧
      (∀ part ∈ modifier, part.isToken .typeKeyword) ∧ name.isToken .identifier ∧
      sign.isToken .equals ∧ value.isToken .semicolon = false ∧
      ∀ part ∈ stop, part.isToken .semicolon
  | .expressionStatement =>
    ∃ value stop, children = value :: stop ∧ (∀ part ∈ stop, part.isToken .semicolon) ∧
      value.isOperand ∧ value.firstLeaf.StartsExpression text
  | .block =>
    children.head?.any (Node.isToken .openBrace) ∧
      children.getLast?.any (Node.isToken .closeBrace)
  | .moduleBlock =>
    children.head?.any (Node.isToken .openBrace) ∧
      children.getLast?.any (Node.isToken .closeBrace) ∧
      ∀ child ∈ children, child.isStatement ∧ child.isToken .exportKeyword = false
  | .caseClause => children.head?.any (Node.isToken .caseKeyword)
  | .defaultClause => children.head?.any (Node.isToken .defaultKeyword)
  | .decorator => children.head?.any (Node.isToken .atSign)
  | .classDeclaration =>
    (∃ front word rest, children = front ++ word :: rest ∧ word.isToken .classKeyword ∧
      ∀ part ∈ front, part.isClassFront) ∧
      children.getLast?.any (Node.isToken .closeBrace)
  | .classExpression =>
    (∃ front word rest, children = front ++ word :: rest ∧ word.isToken .classKeyword ∧
      ∀ part ∈ front, part.isKind .decorator) ∧
      children.getLast?.any (Node.isToken .closeBrace)
  | .functionDeclaration =>
    children.any (Node.isKind .block) → children.getLast?.any (Node.isKind .block)
  | .enumDeclaration =>
    ∃ front word name rest, children = front ++ word :: name :: rest ∧
      (∀ part ∈ front, part.isClassFront) ∧ word.isToken .enumKeyword ∧
      name.isToken .identifier
  | .moduleDeclaration =>
    (∃ front word rest, children = front ++ word :: rest ∧
      (∀ part ∈ front, part.isClassFront) ∧
      (word.isToken .globalKeyword ∨
        (word.isToken .namespaceKeyword ∨ word.isToken .moduleKeyword) ∧
          rest.head?.any (fun name => name.isToken .identifier || name.isToken .stringLiteral)) ∧
      ∀ part ∈ rest, part.isToken .exportKeyword = false) ∧
      (children.any (Node.isKind .moduleBlock) →
        ∃ front body, children = front ++ [body] ∧ body.isKind .moduleBlock ∧
          ∀ part ∈ front, part.isKind .moduleBlock = false)
  | .tryStatement =>
    children.getLast?.any (fun last => last.isKind .block || last.isKind .catchClause)
  | .catchClause => children.getLast?.any (Node.isKind .block)
  | .switchStatement => children.getLast?.any (Node.isKind .caseBlock)
  | .caseBlock => children.getLast?.any (Node.isToken .closeBrace)
  | .heritageClause => False
  | _ => True

namespace Node

/-- The node is regular: each branch below it has the shape of its kind, and a clause of heritage
stands only where such clauses belong. -/
def Regular (text : String) (node : Node) : Prop :=
  ∀ kind span marks children, branch kind span marks children ∈ node.descendants →
    (kind ≠ .heritageClause → kind.HasShape text children) ∧
      ((∃ child ∈ children, child.isKind .heritageClause) → kind.hasHeritage)

variable {text : String} {nodes : List Node} {node : Node}

theorem exists_of_isKind (h : node.isKind kind) :
    ∃ span marks children, node = branch kind span marks children := by
  cases node with
  | branch kind' span marks children =>
    obtain rfl : kind' = kind := by simpa [isKind, kind?] using h
    exact ⟨span, marks, children, rfl⟩
  | leaf token | inserted piece => cases h

theorem regular_leaf (token : Token) : (leaf token).Regular text := by
  intro kind span marks children h
  simp [descendants] at h

theorem Regular.group (h : ∀ node ∈ nodes, node.Regular text)
    (hshape : kind ≠ .heritageClause → kind.HasShape text nodes)
    (hheritage : (∃ child ∈ nodes, child.isKind .heritageClause) → kind.hasHeritage) :
    (group kind nodes).Regular text := by
  intro kind' span marks children hmem
  rw [Node.group, descendants, List.mem_cons] at hmem
  rcases hmem with hself | hbelow
  · cases hself
    exact ⟨hshape, hheritage⟩
  · obtain ⟨child, hchild, hmem⟩ := mem_descendantsOf.1 hbelow
    exact h child hchild kind' span marks children hmem

theorem Regular.of_mem {part : Node} (h : node.Regular text) (hpart : part ∈ node.descendants) :
    part.Regular text :=
  fun kind span marks children hmem => h kind span marks children (descendants_subset hpart hmem)

theorem Regular.branch {span : Span} {marks : Marks}
    (h : (branch kind span marks nodes).Regular text) :
    (kind ≠ .heritageClause → kind.HasShape text nodes) ∧
      ((∃ child ∈ nodes, child.isKind .heritageClause) → kind.hasHeritage) ∧
        ∀ child ∈ nodes, child.Regular text := by
  obtain ⟨hshape, hheritage⟩ := h kind span marks nodes (mem_descendants_self _)
  refine ⟨hshape, hheritage, fun child hchild => h.of_mem ?_⟩
  exact child_mem_descendants hchild

/-! ## Labels -/

/-- The node is an expression that no binary operator holds together, unless it is a leaf. -/
def isUnary (node : Node) : Bool := node.kind?.all NodeKind.isUnary

theorem isLeaf_of_isToken {kind : TokenKind} (h : node.isToken kind) : node.isLeaf := by
  cases node with
  | branch kind' span marks children => cases h
  | _ => rfl

theorem isToken_of_ne {kind other : TokenKind} (h : node.isToken kind) (hne : kind ≠ other) :
    node.isToken other = false := by
  rw [isToken, beq_iff_eq.1 h]
  simpa using hne

theorem isKind_of_ne {other : NodeKind} (h : node.isKind kind) (hne : kind ≠ other) :
    node.isKind other = false := by
  rw [isKind, beq_iff_eq.1 h]
  simpa using hne

theorem isOperand_of_isUnary (h : node.isUnary) : node.isOperand := by
  cases node with
  | branch kind span marks children => exact NodeKind.isOperand_of_isUnary h
  | _ => rfl

section Leaves

variable (h : node.isLeaf)

include h

@[simp]
theorem isKind_of_isLeaf (kind : NodeKind) : node.isKind kind = false := by
  cases node <;> first | rfl | cases h

@[simp]
theorem isUnary_of_isLeaf : node.isUnary := by
  cases node <;> first | rfl | cases h

@[simp]
theorem isOperand_of_isLeaf : node.isOperand := by
  cases node <;> first | rfl | cases h

@[simp]
theorem isTypePart_of_isLeaf : node.isTypePart = false := by
  cases node <;> first | rfl | cases h

@[simp]
theorem startsStatement_of_isLeaf (kind : NodeKind) : startsStatement kind node := by
  simp [startsStatement, h]

end Leaves

section Groups

variable (kind : NodeKind)

@[simp]
theorem isKind_group (kind' : NodeKind) : (group kind nodes).isKind kind' = (kind == kind') := by
  simp [group, isKind, kind?]

@[simp]
theorem isLeaf_group : (group kind nodes).isLeaf = false := rfl

@[simp]
theorem isToken_group (token : TokenKind) : (group kind nodes).isToken token = false := rfl

@[simp]
theorem isUnary_group : (group kind nodes).isUnary = kind.isUnary := rfl

@[simp]
theorem isOperand_group : (group kind nodes).isOperand = kind.isOperand := rfl

@[simp]
theorem isTypePart_group : (group kind nodes).isTypePart = kind.isTypePart := rfl

@[simp]
theorem isStatement_group : (group kind nodes).isStatement =
    (kind.isStatement && nodes.head?.any (startsStatement kind)) := rfl

end Groups

end Node

end Untype
