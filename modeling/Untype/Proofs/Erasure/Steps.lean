-- The walk of the erasure, step by step: which leaves are kept, which pieces
-- are passed over, in the order of the text. The steps are known before the
-- walk; what the walk carries along decides only about trivia.
import Untype.Proofs.Erasure.Faithful

namespace Untype.Erasure

open Untype.Node

variable {acts : List Action} {children : List Node}
variable {task : Task} {span : Span} {marks : Marks} {child : Node}

/-! ## What the walk leaves as it was -/

section Labels

variable {source : String} {w : Walk} {node : Node}

@[simp]
theorem label_markDirty (node : Node) : node.markDirty.label = node.label := by cases node <;> rfl

@[simp]
theorem label_setTrivia (trivia : String) (node : Node) :
    (node.setTrivia trivia).label = node.label := by
  cases node <;> rfl

@[simp]
theorem span_markDirty (node : Node) : node.markDirty.span = node.span := by cases node <;> rfl

@[simp]
theorem span_setTrivia (trivia : String) (node : Node) :
    (node.setTrivia trivia).span = node.span := by
  cases node <;> rfl

@[simp]
theorem visitLeaf_walk : (visitLeaf source w node).walk = w.past source node := by
  rcases visitLeaf_cases source w node with ⟨-, h⟩ | h <;> rw [h]

@[simp]
theorem label_visitLeaf : (visitLeaf source w node).node.label = node.label := by
  rcases visitLeaf_cases source w node with ⟨-, h⟩ | h <;> simp [h]

@[simp]
theorem span_visitLeaf : (visitLeaf source w node).node.span = node.span := by
  rcases visitLeaf_cases source w node with ⟨-, h⟩ | h <;> simp [h]

@[simp]
theorem label_dress (task : Task) (node : Node) : (task.dress node).label = node.label := by
  cases task <;> simp [Task.dress]

@[simp]
theorem span_dress (task : Task) (node : Node) : (task.dress node).span = node.span := by
  cases task <;> simp [Task.dress]

theorem label_visit (s : Setting) (task : Task) (w : Walk) (node : Node) :
    (visit s task w node).node.label = node.label ∧ (visit s task w node).node.span =
      node.span := by
  cases node with
  | branch kind span marks children =>
    rw [visit]
    split
    · unfold visitTypeSyntax
      dsimp only
      split <;> exact ⟨rfl, rfl⟩
    · exact ⟨rfl, rfl⟩
  | leaf token | inserted piece =>
    simp only [visit]
    exact ⟨by rw [label_visitLeaf, label_dress], by rw [span_visitLeaf, span_dress]⟩

theorem leaves_visitLeaf (h : node.kind? = none) :
    (visitLeaf source w node).node.leaves = [(visitLeaf source w node).node] := by
  have hkind : (visitLeaf source w node).node.label = node.label := label_visitLeaf
  generalize (visitLeaf source w node).node = kept at hkind ⊢
  cases kept with
  | branch kind span marks children => cases node <;> simp_all [kind?, label]
  | leaf token | inserted piece => rfl

end Labels

/-! ## Leaves after a visit -/

theorem leaves_replaceFirstLeaf {source : String} {first : Node} (hfirst : first.kind? = none) :
    ∀ {node : Node} {i j : Nat}, Tiles source node i j →
      (replaceFirstLeaf first node).leaves = first :: node.leaves.tail
  | leaf token, i, j, h | inserted piece, i, j, h => by
    cases first with
    | branch kind place marks children => cases hfirst
    | _ => rfl
  | branch kind place marks [], i, j, h => absurd rfl (tiles_branch.1 h).2.2.1
  | branch kind place marks (child :: rest), i, j, h => by
    obtain ⟨k, hchild, -⟩ := tileAll_cons.1 h.tileAll
    rw [replaceFirstLeaf, replaceFirstLeafOf, leaves, leavesOf,
      leaves_replaceFirstLeaf hfirst hchild, leaves, leavesOf, hchild.leaves_eq_cons]
    rfl

section Leaves

variable {source : String} {w : Walk} {node : Node}

theorem kind?_visitLeaf : (visitLeaf source w node).node.kind? = node.kind? := by
  rcases visitLeaf_cases source w node with ⟨-, hsame⟩ | hother
  · rw [hsame]
  · rw [hother]
    cases node <;> rfl

theorem visitLeaf_tell (findings : List Finding) :
    (visitLeaf source { w with findings } node).node = (visitLeaf source w node).node ∧
      (visitLeaf source { w with findings } node).changed = (visitLeaf source w node).changed := by
  have hsame : keptTrivia source { w with findings } node = keptTrivia source w node := rfl
  rw [visitLeaf_eq, visitLeaf_eq, hsame]
  split <;> exact ⟨rfl, rfl⟩

/-- Of type syntax that stays only the first leaf is visited. -/
theorem leaves_visitTypeSyntax {i j : Nat} (h : Tiles source node i j) :
    (visitTypeSyntax source w node).node.leaves =
      (visitLeaf source w node.firstLeaf).node :: node.leaves.tail := by
  obtain ⟨token, k, hfirst, -⟩ := firstLeaf_of_tiles h
  unfold visitTypeSyntax
  dsimp only
  rw [(visitLeaf_tell _).1, (visitLeaf_tell _).2]
  split
  · refine leaves_replaceFirstLeaf ?_ h
    rw [kind?_visitLeaf, hfirst]
    rfl
  · rename_i hsame
    rw [visitLeaf_unchanged (by simpa using hsame)]
    exact h.leaves_eq_cons

theorem leadingTrivia_visitLeaf (h : node.kind? = none) :
    (visitLeaf source w node).node.leadingTrivia source = keptTrivia source w node := by
  rcases visitLeaf_cases source w node with ⟨hkept, hsame⟩ | hother
  · rw [hsame, hkept]
  · rw [hother]
    cases node with
    | leaf token | inserted piece => rfl
    | branch => cases h

theorem leafText_visitLeaf :
    leafText source (visitLeaf source w node).node = leafText source node := by
  rcases visitLeaf_cases source w node with ⟨-, hsame⟩ | hother
  · rw [hsame]
  · rw [hother]
    cases node <;> rfl

end Leaves

/-! ## Steps -/

/-- A step of the walk. -/
inductive Step where
  /-- Something is told. -/
  | tell (findings : List Finding)
  /-- A statement or a member starts here, or does not. -/
  | start (atStart : Bool)
  /-- A leaf is kept. -/
  | keep (node : Node)
  /-- Type syntax stays as it is. -/
  | stay (node : Node)
  /-- A piece is passed over. It stood first in its list, or did not. -/
  | pass (child : Node) (removal : Removal) (first : Bool)

/-- The walk past a removed piece that stood first in its list, or did not. -/
def Walk.skipAt (w : Walk) (source : String) (child : Node) (removal : Removal) (first : Bool) :
    Walk :=
  let trivia := child.firstLeaf.leadingTrivia source
  let pending := match removal with
    | .unit => w.pending.collapse (unitGap trivia) first
    | .modifier => w.pending.collapse trivia first
    | .opening => w.pending.collapse trivia true
    | .inside => child.leaves.foldl
        (fun pending leaf => pending.inherit (insideComments (leaf.leadingTrivia source))) w.pending
    | .silent => w.pending
  { w with pending, removed := true }

namespace Step

/-- The leaves that the step adds to the new tree. -/
def leaves (source : String) (w : Walk) : Step → List Node
  | keep node => [(visitLeaf source w node).node]
  | stay node => (visitTypeSyntax source w node).node.leaves
  | _ => []

/-- The walk after the step. -/
def next (source : String) (w : Walk) : Step → Walk
  | tell findings => { w with findings := w.findings ++ findings }
  | start atStart => { w with atStart }
  | keep node => w.past source node
  | stay node => (visitTypeSyntax source w node).walk
  | pass child removal first => w.skipAt source child removal first

/-- The walk after several steps. -/
def walkAlong (source : String) (w : Walk) (steps : List Step) : Walk :=
  steps.foldl (next source) w

/-- The leaves that several steps add to the new tree. -/
def leavesAlong (source : String) : Walk → List Step → List Node
  | _, [] => []
  | w, step :: rest => step.leaves source w ++ leavesAlong source (step.next source w) rest

variable {source : String} {w : Walk} {step : Step} {front back : List Step}

@[simp]
theorem walkAlong_nil : walkAlong source w [] = w := rfl

@[simp]
theorem walkAlong_cons :
    walkAlong source w (step :: back) = walkAlong source (step.next source w) back :=
  rfl

theorem walkAlong_append :
    walkAlong source w (front ++ back) = walkAlong source (walkAlong source w front) back :=
  List.foldl_append

@[simp]
theorem leavesAlong_nil : leavesAlong source w [] = [] := rfl

@[simp]
theorem leavesAlong_cons : leavesAlong source w (step :: back) =
    step.leaves source w ++ leavesAlong source (step.next source w) back := rfl

theorem leavesAlong_append : leavesAlong source w (front ++ back) =
    leavesAlong source w front ++ leavesAlong source (walkAlong source w front) back := by
  induction front generalizing w with
  | nil => rfl
  | cons step front ih => simp [ih]

end Step

/-! ## The steps over a tree -/

open Step

/-- The steps before a kept child. -/
def enterSteps (policy : Policy) (child : Node) (lastKept : Option Label) : List Step :=
  if policy.holdsUnits then
    [.start (isUnit policy child.label lastKept && !lastKept.any isClosed)]
  else
    []

/-- The steps after a kept child. -/
def leaveSteps (policy : Policy) : List Step := if policy.holdsUnits then [.start false] else []

/-- The steps over inserted pieces. -/
def pieceSteps (policy : Policy) : List Inserted → List Step
  | [] => []
  | piece :: rest => .keep (.inserted piece) :: (leaveSteps policy ++ pieceSteps policy rest)

/-- What was kept last after a child and the pieces behind it. -/
def keptLabel (child : Node) (after : List Inserted) : Label :=
  if after.isEmpty then child.label else .inserted

mutual

/-- The steps over a tree. -/
def steps (s : Setting) (task : Task) : Node → List Step
  | .branch kind span marks children =>
    if policy kind == .typeSyntax then
      [.stay (.branch kind span marks children)]
    else
      let scope : Scope := { kind, span, task, children }
      let verdicts := verdicts s scope
      .tell (verdicts.filterMap (·.finding)) ::
        stepsAll s (policy kind) none (actions scope verdicts) children
  | node => [.keep (task.dress node)]

/-- The steps over the children of a node, with the actions for them. -/
def stepsAll (s : Setting) (policy : Policy) (lastKept : Option Label) (actions : List Action) :
    List Node → List Step
  | [] => []
  | child :: rest =>
    match actions.headD .stay with
    | .remove removal =>
      .pass child removal (isFirst lastKept) :: stepsAll s policy lastKept actions.tail rest
    | .replace piece =>
      enterSteps policy child lastKept ++ pieceSteps policy [piece] ++
        stepsAll s policy (some .inserted) actions.tail rest
    | .keep task before after =>
      enterSteps policy child lastKept ++ pieceSteps policy before ++ steps s task child ++
        leaveSteps policy ++ pieceSteps policy after ++
        stepsAll s policy (some (keptLabel child after)) actions.tail rest

end

theorem steps_branch {s : Setting} {kind : NodeKind}
    (h : policy kind ≠ .typeSyntax) : steps s task (branch kind span marks children) =
      .tell ((verdicts s ⟨kind, span, task, children⟩).filterMap (·.finding)) ::
        stepsAll s (policy kind) none (actionsOf s ⟨kind, span, task, children⟩) children := by
  rw [steps, if_neg (by simpa using h)]

section Walks

variable (source : String) (w : Walk)

theorem enterSteps_follow (policy : Policy) (child : Node) (lastKept : Option Label) :
    leavesAlong source w (enterSteps policy child lastKept) = [] ∧
      walkAlong source w (enterSteps policy child lastKept) = w.enter policy child lastKept := by
  unfold enterSteps Walk.enter
  split <;> exact ⟨rfl, rfl⟩

theorem leaveSteps_follow (policy : Policy) :
    leavesAlong source w (leaveSteps policy) = [] ∧
      walkAlong source w (leaveSteps policy) = w.leave policy := by
  unfold leaveSteps Walk.leave
  split <;> exact ⟨rfl, rfl⟩

theorem pieceSteps_follow (policy : Policy) (pieces : List Inserted) :
    leavesAlong source w (pieceSteps policy pieces) =
        leavesOf (visitPieces source policy w pieces).1 ∧
      walkAlong source w (pieceSteps policy pieces) = (visitPieces source policy w pieces).2 := by
  induction pieces generalizing w with
  | nil => exact ⟨rfl, rfl⟩
  | cons piece pieces ih =>
    obtain ⟨hleaves, hwalk⟩ := leaveSteps_follow source (w.past source (.inserted piece)) policy
    simp only [pieceSteps, leavesAlong_cons, walkAlong_cons, leavesAlong_append, walkAlong_append,
      Step.leaves, Step.next, hleaves, hwalk, visitPieces, visitLeaf_walk, leavesOf]
    exact ⟨by rw [leaves_visitLeaf rfl, (ih _).1]; rfl, (ih _).2⟩

theorem visitPieces_labels (policy : Policy) (pieces : List Inserted) :
    (visitPieces source policy w pieces).1.map label = pieces.map fun _ => .inserted := by
  induction pieces generalizing w with
  | nil => rfl
  | cons piece pieces ih =>
    have hlabel : (visitLeaf source w (.inserted piece)).node.label = .inserted := label_visitLeaf
    simp only [visitPieces, List.map_cons, hlabel, ih]

theorem lastLabel?_kept (policy : Policy) (front : List Node) {kept : Node}
    (hkept : kept.label = child.label) (after : List Inserted) :
    lastLabel? (front ++ kept :: (visitPieces source policy w after).1) =
      some (keptLabel child after) := by
  unfold lastLabel? keptLabel
  rw [List.getLast?_append_of_ne_nil _ (List.cons_ne_nil _ _), ← List.getLast?_map, List.map_cons,
    visitPieces_labels, hkept]
  rcases after.eq_nil_or_concat with rfl | ⟨init, last, rfl⟩
  · rfl
  · simp [List.getLast?_cons]

end Walks

mutual

/-- The walk over a tree follows its steps. -/
theorem visit_follows (s : Setting) : ∀ (node : Node) (task : Task) (w : Walk),
    (visit s task w node).node.leaves = leavesAlong s.source w (steps s task node) ∧
      (visit s task w node).walk = walkAlong s.source w (steps s task node)
  | leaf token, task, w => by
    simp only [visit, steps, leavesAlong_cons, leavesAlong_nil, walkAlong_cons, walkAlong_nil,
      Step.leaves, Step.next, visitLeaf_walk, List.append_nil, and_true]
    exact leaves_visitLeaf (dress_kind? task (leaf token))
  | inserted piece, task, w => by
    simp only [visit, steps, leavesAlong_cons, leavesAlong_nil, walkAlong_cons, walkAlong_nil,
      Step.leaves, Step.next, visitLeaf_walk, List.append_nil, and_true]
    exact leaves_visitLeaf (dress_kind? task (inserted piece))
  | branch kind span marks children, task, w => by
    rw [visit, steps]
    split
    · simp [Step.leaves, Step.next]
    · exact visitAll_follows s children (policy kind) none _ _

theorem visitAll_follows (s : Setting) : ∀ (children : List Node) (policy : Policy)
    (lastKept : Option Label) (w : Walk) (actions : List Action),
    leavesOf (visitAll s policy lastKept w actions children).nodes =
        leavesAlong s.source w (stepsAll s policy lastKept actions children) ∧
      (visitAll s policy lastKept w actions children).walk =
        walkAlong s.source w (stepsAll s policy lastKept actions children)
  | [], policy, lastKept, w, actions => by
    simp only [visitAll, stepsAll, leavesOf]
    exact ⟨rfl, rfl⟩
  | child :: rest, policy, lastKept, w, actions => by
    have hrest := fun lastKept w => visitAll_follows s rest policy lastKept w actions.tail
    rw [visitAll, stepsAll]
    cases actions.headD .stay with
    | remove removal => exact hrest lastKept _
    | replace piece =>
      obtain ⟨henter, hw⟩ := enterSteps_follow s.source w policy child lastKept
      obtain ⟨hpiece, hw'⟩ :=
        pieceSteps_follow s.source (w.enter policy child lastKept) policy [piece]
      simp only [leavesAlong_append, walkAlong_append, henter, hw, hpiece, hw', leavesOf_append,
        List.nil_append, (hrest _ _).1, (hrest _ _).2, and_self]
    | keep task before after =>
      obtain ⟨henter, hw⟩ := enterSteps_follow s.source w policy child lastKept
      obtain ⟨hbefore, hw'⟩ :=
        pieceSteps_follow s.source (w.enter policy child lastKept) policy before
      dsimp only
      generalize visitPieces s.source policy (w.enter policy child lastKept) before = front
        at hbefore hw' ⊢
      obtain ⟨hchild, hw''⟩ := visit_follows s child task front.2
      obtain ⟨hleave, hw₁⟩ := leaveSteps_follow s.source (visit s task front.2 child).walk policy
      obtain ⟨hafter, hw₂⟩ := pieceSteps_follow s.source
        ((visit s task front.2 child).walk.leave policy) policy after
      rw [lastLabel?_kept s.source _ policy front.1 (label_visit s task front.2 child).1]
      simp only [leavesAlong_append, walkAlong_append, henter, hw, hbefore, hw', ← hchild, ← hw'',
        hleave, hw₁, hafter, hw₂, leavesOf_append, leavesOf, List.nil_append,
        List.append_assoc, List.cons_append, (hrest _ _).1, (hrest _ _).2, and_self]

end

theorem leaves_erase (options : Options) (tree : SyntaxTree) :
    (tree.erase options).tree.root.leaves =
      leavesAlong tree.source {} (steps (.ofTree options tree.source tree.root) .none tree.root) :=
  (visit_follows (.ofTree options tree.source tree.root) tree.root .none {}).1

/-! ## The last child -/

/-- The steps over children are those over the first ones and those over the others. -/
theorem stepsAll_append (s : Setting) (policy : Policy) (lastKept : Option Label)
    (h : acts.length = children.length) :
    ∃ lastKept', ∀ acts' rest, stepsAll s policy lastKept (acts ++ acts') (children ++ rest) =
      stepsAll s policy lastKept acts children ++ stepsAll s policy lastKept' acts' rest := by
  induction children generalizing acts lastKept with
  | nil => exact ⟨lastKept, fun acts' rest => by rw [List.eq_nil_of_length_eq_zero h]; rfl⟩
  | cons child children ih =>
    cases acts with
    | nil => cases h
    | cons action acts =>
      have hlength : acts.length = children.length := by simpa using h
      have hrest := fun lastKept => ih lastKept hlength
      cases action with
      | remove removal =>
        obtain ⟨lastKept', hsplit⟩ := hrest lastKept
        exact ⟨lastKept', fun acts' rest => by simp [stepsAll, hsplit]⟩
      | replace piece =>
        obtain ⟨lastKept', hsplit⟩ := hrest (some .inserted)
        exact ⟨lastKept', fun acts' rest => by simp [stepsAll, hsplit]⟩
      | keep task before after =>
        obtain ⟨lastKept', hsplit⟩ := hrest (some (keptLabel child after))
        exact ⟨lastKept', fun acts' rest => by simp [stepsAll, hsplit]⟩

theorem stepsAll_split (s : Setting) (policy : Policy) (lastKept : Option Label) {index : Nat}
    {action : Action} (hchild : children[index]? = some child)
    (haction : acts[index]? = some action) :
    ∃ front lastKept', stepsAll s policy lastKept acts children = front ++
      stepsAll s policy lastKept' (action :: acts.drop (index + 1))
        (child :: children.drop (index + 1)) := by
  obtain ⟨hindex, rfl⟩ := List.getElem?_eq_some_iff.1 hchild
  obtain ⟨hindex', rfl⟩ := List.getElem?_eq_some_iff.1 haction
  have hlength : (acts.take index).length = (children.take index).length := by simp; omega
  obtain ⟨lastKept', hsplit⟩ := stepsAll_append s policy lastKept hlength
  have hrest := hsplit (acts.drop index) (children.drop index)
  rw [List.take_append_drop, List.take_append_drop, List.drop_eq_getElem_cons hindex,
    List.drop_eq_getElem_cons hindex'] at hrest
  exact ⟨_, lastKept', hrest⟩

theorem stepsAll_concat (s : Setting) (policy : Policy) (lastKept : Option Label) (child : Node)
    (h : acts[children.length]? = some (.keep task [] [])) :
    ∃ front lastKept', stepsAll s policy lastKept acts (children ++ [child]) =
      front ++ (enterSteps policy child lastKept' ++ steps s task child ++ leaveSteps policy) := by
  have hchild : (children ++ [child])[children.length]? = some child := by simp
  obtain ⟨front, lastKept', hsplit⟩ := stepsAll_split s policy lastKept hchild h
  exact ⟨front, lastKept', by rw [hsplit]; simp [stepsAll, pieceSteps]⟩

/-- The steps over a file keep its end last. -/
theorem steps_endOfFile (s : Setting) (statements : List Node) {token : Token}
    (h : token.kind = .endOfFile) :
    ∃ front, steps s .none (branch .sourceFile span marks (statements ++ [leaf token])) =
      front ++ [.keep (leaf token), .start false] := by
  let scope : Scope := ⟨.sourceFile, span, .none, statements ++ [leaf token]⟩
  have hlast : scope.children[statements.length]? = some (leaf token) := by simp [scope]
  obtain ⟨action, haction, hstay⟩ := actions_getElem? (s := s) hlast
  have hstay : action = .stay := by
    rcases hstay with hstay | ⟨hcomma, -⟩
    · rw [hstay, verdict_endOfFile h]
    · simp [isToken, token?, h] at hcomma
  rw [hstay] at haction
  obtain ⟨front, lastKept, hsteps⟩ :=
    stepsAll_concat s (policy .sourceFile) none (leaf token) haction
  have hkeep : steps s .none (leaf token) = [.keep (leaf token)] := by simp [steps, Task.dress]
  rw [steps_branch (by decide), hsteps, hkeep, List.append_assoc, ← List.append_assoc,
    ← List.cons_append]
  exact ⟨_, rfl⟩

end Untype.Erasure
