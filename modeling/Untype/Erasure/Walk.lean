-- The erasure itself: a walk over the tree in the order of the text, which
-- carries along what waits for the next kept token.
import Untype.Erasure.Plan
import Untype.Tree.Printer

namespace Untype.Erasure

/-- What the walk carries along. -/
structure Walk where
  pending : Pending := {}
  lastChar : Option Char := none
  /-- Something was removed after the last kept token. -/
  removed : Bool := false
  /-- The next kept token starts a statement or a member. -/
  atStart : Bool := false
  findings : List Finding := []
deriving DecidableEq, Repr

structure Visited where
  node : Node
  changed : Bool
  walk : Walk

structure VisitedAll where
  nodes : List Node
  changed : Bool
  walk : Walk

/-! ## Leaves -/

def leafText (source : String) : Node → String
  | .inserted piece => piece.text
  | node => node.text source

/-- A statement that starts with `first` would be read as a part of the one before, whose end
was removed with what came between. -/
def needsSemicolon (w : Walk) (first : Option Char) : Bool :=
  w.atStart && w.removed && first.any continuesExpression &&
    w.lastChar.any fun c => c != ';' && c != '\x7b' && c != ':'

/-- The trivia of a leaf after the removals in front of it. -/
def settledTrivia (w : Walk) (own : String) (atEnd : Bool) (first : Option Char) : String :=
  let trivia := w.pending.apply own atEnd
  if needsSemicolon w first then
    ";" ++ trivia
  else
    match w.lastChar, first with
    | some previous, some next =>
      if trivia.isEmpty && needsSeparator previous next then " " else trivia
    | _, _ => trivia

/-- A kept leaf. It gets the trivia that waits. -/
def visitLeaf (source : String) (w : Walk) (leaf : Node) : Visited :=
  let text := (leafText source leaf).toList
  let first := text.head?
  let isInserted := leaf.token?.isNone
  let own := leaf.leadingTrivia source
  let trivia :=
    if w.pending.isEmpty && !needsSemicolon w first then own
    else settledTrivia w own (leaf.isToken .endOfFile) first
  let after : Walk :=
    { w with
      pending := {}
      lastChar := text.getLast?.or w.lastChar
      removed := w.removed && text.isEmpty
      atStart := w.atStart && text.isEmpty }
  if trivia == own then
    ⟨leaf, isInserted, after⟩
  else
    ⟨(leaf.setTrivia trivia).markDirty, true, after⟩

/-! ## Units -/

/-- The child is a statement or a member, and not the value after `case`. -/
def isUnit (policy : Policy) (label : Label) (lastKept : Option Label) : Bool :=
  match policy, label with
  | .classBody, .branch kind =>
    match kind with
    | .propertyDeclaration | .methodDeclaration | .classConstructor | .getAccessor | .setAccessor
    | .classStaticBlockDeclaration => true
    | _ => false
  | .classBody, _ => false
  | _, .token _ => false
  | _, _ => lastKept != some (.token .caseKeyword)

/-- A brace ends the node, so that what follows cannot be read as a part of it. -/
def isClosed : Label → Bool
  | .branch kind =>
    match kind with
    | .functionDeclaration | .classDeclaration | .moduleDeclaration | .block | .tryStatement
    | .switchStatement | .methodDeclaration | .classConstructor | .getAccessor | .setAccessor
    | .classStaticBlockDeclaration => true
    | _ => false
  | _ => false

/-- The walk before a kept child. -/
def Walk.enter (w : Walk) (policy : Policy) (child : Node) (lastKept : Option Label) : Walk :=
  if policy.holdsUnits then
    { w with atStart := isUnit policy child.label lastKept && !lastKept.any isClosed }
  else
    w

/-- The walk after a kept child. -/
def Walk.leave (w : Walk) (policy : Policy) : Walk :=
  if policy.holdsUnits then { w with atStart := false } else w

/-- Nothing kept comes before, or only an opening bracket. -/
def isFirst : Option Label → Bool
  | none => true
  | some (.token .openBrace) => true
  | some (.token .openParen) => true
  | some (.token .openBracket) => true
  | some (.token .lessThan) => true
  | _ => false

/-- The walk past a removed child. -/
def Walk.skip (w : Walk) (source : String) (child : Node) (removal : Removal)
    (lastKept : Option Label) : Walk :=
  let trivia := child.firstLeaf.leadingTrivia source
  let pending := match removal with
    | .unit => w.pending.collapse (unitGap trivia) (isFirst lastKept)
    | .modifier => w.pending.collapse trivia (isFirst lastKept)
    | .opening => w.pending.collapse trivia true
    | .inside => child.leaves.foldl
        (fun pending leaf => pending.inherit (insideComments (leaf.leadingTrivia source))) w.pending
    | .silent => w.pending
  { w with pending, removed := true }

/-! ## Trees -/

def visitPieces (source : String) (policy : Policy) (w : Walk) : List Inserted → List Node × Walk
  | [] => ([], w)
  | piece :: rest =>
    let v := visitLeaf source w (.inserted piece)
    let (nodes, w) := visitPieces source policy (v.walk.leave policy) rest
    (v.node :: nodes, w)

mutual

/-- Puts another leaf in the place of the first one. The way down is marked. -/
def replaceFirstLeaf (leaf : Node) : Node → Node
  | .branch kind span marks children =>
    .branch kind span { marks with dirty := true } (replaceFirstLeafOf leaf children)
  | _ => leaf

def replaceFirstLeafOf (leaf : Node) : List Node → List Node
  | [] => []
  | child :: rest => replaceFirstLeaf leaf child :: rest

end

/-- Type syntax in a place that has no rule for it stays as it is, and that is told. -/
def visitTypeSyntax (source : String) (w : Walk) (node : Node) : Visited :=
  let finding := findingAt node (.typeSyntaxKept (excerpt (node.text source)))
  let v := visitLeaf source { w with findings := w.findings ++ [finding] } node.firstLeaf
  let last := (node.lastLeaf.text source).toList.getLast?
  { node := if v.changed then replaceFirstLeaf v.node node else node
    changed := v.changed
    walk := { v.walk with lastChar := last.or v.walk.lastChar } }

def lastLabel? (nodes : List Node) : Option Label := nodes.getLast?.map Node.label

mutual

def visit (s : Setting) (task : Task) (w : Walk) : Node → Visited
  | .branch kind span marks children =>
    if policy kind == .typeSyntax then
      visitTypeSyntax s.source w (.branch kind span marks children)
    else
      let scope : Scope := { kind, span, task, children }
      let verdicts := verdicts s scope
      let told := { w with findings := w.findings ++ verdicts.filterMap (·.finding) }
      let v := visitAll s (policy kind) none told (actions scope verdicts) children
      { node := .branch kind span
          { dirty := marks.dirty || v.changed, lowered := marks.lowered || task.lowers } v.nodes
        changed := v.changed
        walk := v.walk }
  | leaf => visitLeaf s.source w (task.dress leaf)

/-- The walk over the children of a node, with the actions for them. `lastKept` is what was
kept last. -/
def visitAll (s : Setting) (policy : Policy) (lastKept : Option Label) (w : Walk)
    (actions : List Action) : List Node → VisitedAll
  | [] => ⟨[], false, w⟩
  | child :: rest =>
    match actions.headD .stay with
    | .remove removal =>
      let w := w.skip s.source child removal lastKept
      let others := visitAll s policy lastKept w actions.tail rest
      { others with changed := true }
    | .replace piece =>
      let (nodes, w) := visitPieces s.source policy (w.enter policy child lastKept) [piece]
      let others := visitAll s policy (some .inserted) w actions.tail rest
      ⟨nodes ++ others.nodes, true, others.walk⟩
    | .keep task before after =>
      let (front, w) := visitPieces s.source policy (w.enter policy child lastKept) before
      let v := visit s task w child
      let (back, w) := visitPieces s.source policy (v.walk.leave policy) after
      let kept := front ++ v.node :: back
      let others := visitAll s policy (lastLabel? kept) w actions.tail rest
      { nodes := kept ++ others.nodes
        changed := v.changed || !before.isEmpty || !after.isEmpty || others.changed
        walk := others.walk }

end

def Setting.ofTree (options : Options) (source : String) (root : Node) : Setting :=
  { source, options, usage := .ofTree options source root, unit := Text.indentUnit source }

end Untype.Erasure
