-- How a file starts once its types are erased. A byte order mark or a first
-- line with `#!` belongs to the trivia of the first token, and stays in front
-- of the text unless that token goes and nothing hands its trivia on.
import Untype.Proofs.Erasure.Restricted
import Untype.Proofs.Erasure.Runs
import Untype.Proofs.Trivia.Openings

namespace Untype

open Untype.Node Text

namespace Erasure

open Step

variable {s : Setting} {task task' : Task} {kind : NodeKind} {span : Span} {marks : Marks}
  {node first : Node} {rest : List Node} {source text : String} {given : Option String}
variable {passed : List Passed} {action : Action} {i j : Nat} {statements : List Node}
  {trivia : String}

/-! ## Steps up to the first kept leaf -/

/-- A piece that stands first in its list, or does not, and goes like this, leaves the trivia in
front of it as that of the first one. -/
def Removal.leavesGap (first : Bool) : Removal → Bool
  | .unit | .modifier => first
  | .opening => true
  | .inside | .silent => false

/-- What is passed over before anything is kept leaves the trivia in front of it. If some trivia is
given, the first piece that is kept or passed over has it. -/
inductive Step.Opens (source : String) : Option String → List Step → Prop where
  | tell {given : Option String} (findings : List Finding) {rest : List Step} :
    Opens source given rest → Opens source given (.tell findings :: rest)
  | start {given : Option String} (atStart : Bool) {rest : List Step} :
    Opens source given rest → Opens source given (.start atStart :: rest)
  | keep {given : Option String} {node : Node} {rest : List Step} :
    (∀ trivia ∈ given, node.leadingTrivia source = trivia) →
    Opens source given (.keep node :: rest)
  | stay {given : Option String} {node : Node} {rest : List Step} :
    (∀ trivia ∈ given, node.firstLeaf.leadingTrivia source = trivia) →
    Opens source given (.stay node :: rest)
  | pass {given : Option String} {child : Node} {removal : Removal} {first : Bool}
    {rest : List Step} : removal.leavesGap first →
    (∀ trivia ∈ given, child.firstLeaf.leadingTrivia source = trivia) →
    Opens source none rest → Opens source given (.pass child removal first :: rest)

theorem Step.Opens.append {front : List Step} (h : Opens source given front) (back : List Step) :
    Opens source given (front ++ back) := by
  induction h with
  | tell findings _ ih => exact .tell findings ih
  | start atStart _ ih => exact .start atStart ih
  | keep htrivia => exact .keep htrivia
  | stay htrivia => exact .stay htrivia
  | pass hremoval htrivia _ ih => exact .pass hremoval htrivia ih

theorem Step.Opens.weaken {steps : List Step} (h : Opens source given steps) :
    Opens source none steps := by
  induction h with
  | tell findings _ ih => exact .tell findings ih
  | start atStart _ ih => exact .start atStart ih
  | keep => exact .keep (by simp)
  | stay => exact .stay (by simp)
  | pass hremoval _ hrest => exact .pass hremoval (by simp) hrest

theorem Step.Opens.enter {back : List Step} (h : Opens source given back) (policy : Policy)
    (child : Node) (lastKept : Option Label) :
    Opens source given (enterSteps policy child lastKept ++ back) := by
  unfold enterSteps
  split
  · exact .start _ h
  · exact h

theorem ComesTo.opens {passed : List Node} {leaf : Node} {steps : List Step}
    (h : ComesTo passed leaf steps) (hgiven : ∀ trivia ∈ given, ∀ first,
      (passed.map firstLeaf ++ [leaf]).head? = some first → first.leadingTrivia source = trivia) :
    Opens source given steps := by
  induction h generalizing given with
  | keep leaf back => exact .keep fun trivia htrivia => hgiven trivia htrivia _ rfl
  | tell findings _ ih => exact .tell findings (ih hgiven)
  | start atStart _ _ ih => exact .start atStart (ih hgiven)
  | pass child first _ ih =>
    exact .pass rfl (fun trivia htrivia => hgiven trivia htrivia _ rfl) (ih (by simp))

theorem Begins.opens (h : Begins s task node) :
    Opens s.source (some (node.firstLeaf.leadingTrivia s.source)) (steps s task node) :=
  h.comesTo.opens (by simp)

/-- What the action makes of the child opens the walk: the child is passed over and leaves its
trivia, or what takes its place starts with that. -/
def Action.Opens (s : Setting) (given : Option String) (child : Node) : Action → Prop
  | .remove removal => removal.leavesGap true ∧
    ∀ trivia ∈ given, child.firstLeaf.leadingTrivia s.source = trivia
  | .replace piece => ∀ trivia ∈ given, piece.trivia.getD "" = trivia
  | .keep task [] _ => Step.Opens s.source given (steps s task child)
  | .keep _ (piece :: _) _ => ∀ trivia ∈ given, piece.trivia.getD "" = trivia

theorem Action.Opens.weaken {child : Node} (h : action.Opens s given child) :
    action.Opens s none child := by
  cases action with
  | remove removal => exact ⟨h.1, by simp⟩
  | replace piece => intro trivia htrivia; cases htrivia
  | keep task before after =>
    cases before with
    | nil => exact Step.Opens.weaken h
    | cons piece before => intro trivia htrivia; cases htrivia

/-- What takes the place of the child starts with its trivia. -/
def Action.Starts (s : Setting) (child : Node) (action : Action) : Prop :=
  action.Opens s (some (child.firstLeaf.leadingTrivia s.source)) child ∧
    ∀ removal, action ≠ .remove removal

/-- The walk over the children of a node, up to the first one that is kept. -/
theorem opens_stepsAll (policy : Policy) (first : Node) (rest : List Node) :
    ∀ (front : List Node) {acts : List Action} {given : Option String},
    (∀ index child, (front ++ [first])[index]? = some child → ∃ action : Action,
      acts[index]? = some action ∧ action.Opens s (if index = 0 then given else none) child) →
    (∀ removal, acts[front.length]? ≠ some (.remove removal)) →
    Step.Opens s.source given (stepsAll s policy none acts (front ++ first :: rest)) := by
  have hkept : ∀ {child : Node} {action : Action} (acts : List Action) (others : List Node)
      {given : Option String}, action.Opens s given child → (∀ removal, action ≠ .remove removal) →
      Step.Opens s.source given (stepsAll s policy none (action :: acts) (child :: others)) := by
    intro child action acts others given hopens hkeep
    rw [stepsAll]
    cases action with
    | remove removal => exact absurd rfl (hkeep removal)
    | replace piece =>
      have hpiece : Step.Opens s.source given (pieceSteps policy [piece]) := .keep hopens
      exact (hpiece.enter policy child none).append _
    | keep task before after =>
      cases before with
      | nil =>
        simp only [List.headD_cons, pieceSteps, List.append_nil]
        exact (((hopens.enter policy child none).append _).append _).append _
      | cons piece before =>
        have hpiece : Step.Opens s.source given (pieceSteps policy (piece :: before)) :=
          .keep hopens
        exact ((((hpiece.enter policy child none).append _).append _).append _).append _
  intro front
  induction front with intro acts given hacts hfirst
  | nil =>
    obtain ⟨action, haction, hopens⟩ := hacts 0 first rfl
    obtain ⟨acts, rfl⟩ := List.head?_eq_some_iff.1 (List.head?_eq_getElem?.trans haction)
    exact hkept acts rest hopens fun removal hremoval => hfirst removal (by simp [hremoval])
  | cons child front ih =>
    obtain ⟨action, haction, hopens⟩ := hacts 0 child rfl
    obtain ⟨acts, rfl⟩ := List.head?_eq_some_iff.1 (List.head?_eq_getElem?.trans haction)
    by_cases hremove : ∃ removal, action = .remove removal
    · obtain ⟨removal, rfl⟩ := hremove
      rw [List.cons_append, stepsAll]
      refine .pass hopens.1 hopens.2 (ih (fun index other hother => ?_) (by simpa using hfirst))
      obtain ⟨action, haction, hopens⟩ := hacts (index + 1) other (by simpa using hother)
      exact ⟨action, by simpa using haction, by split <;> simpa using hopens⟩
    · exact hkept acts _ hopens (by simpa using hremove)

theorem opens_branch (hpolicy : policy kind ≠ .typeSyntax) (front : List Node)
    (hacts : ∀ index child, (front ++ [first])[index]? = some child → ∃ action : Action,
      (actionsOf s ⟨kind, span, task, front ++ first :: rest⟩)[index]? = some action ∧
      action.Opens s (if index = 0 then given else none) child)
    (hfirst : ∀ removal, (actionsOf s ⟨kind, span, task, front ++ first :: rest⟩)[front.length]? ≠
        some (.remove removal)) :
    Step.Opens s.source given (steps s task (branch kind span marks (front ++ first :: rest))) := by
  rw [steps_branch hpolicy]
  exact .tell _ (opens_stepsAll (policy kind) first rest front hacts hfirst)

theorem opens_first (hpolicy : policy kind ≠ .typeSyntax)
    (haction : (actionsOf s ⟨kind, span, task, first :: rest⟩)[0]? = some action)
    (hstarts : action.Starts s first) :
    Step.Opens s.source (some (first.firstLeaf.leadingTrivia s.source))
      (steps s task (branch kind span marks (first :: rest))) := by
  refine opens_branch hpolicy [] (fun index child hchild => ?_) fun removal hremoval => ?_
  · obtain ⟨rfl, rfl⟩ : index = 0 ∧ first = child := by
      cases index <;> simp_all
    exact ⟨action, haction, hstarts.1⟩
  · exact hstarts.2 removal (by simpa [haction] using hremoval)

theorem opens_operand (place : OperandPlace) (hregular : node.Regular text)
    (hoperand : node.isOperand) :
    Step.Opens s.source (some (node.firstLeaf.leadingTrivia s.source))
      (steps s (.operand place) node) := by
  obtain ⟨passed, leaf, hheads, hcomes⟩ := comesTo_operand (s := s) place node hregular hoperand
  refine hcomes.opens fun trivia htrivia first hfirst => ?_
  obtain rfl : node.firstLeaf = first := Option.some.inj (hheads.head?.symm.trans hfirst)
  exact Option.some.inj htrivia

/-! ## Statements -/

theorem leadingTrivia_firstLeaf (h : Tiles source node i j) :
    node.firstLeaf.leadingTrivia source = node.leadingTrivia source := by
  cases node with
  | branch kind span marks children =>
    obtain ⟨token, k, hfirst, hstart, htoken⟩ := firstLeaf_of_tiles h
    obtain ⟨hread, hpos, -⟩ : token.Read source ∧ token.span.pos = i ∧ token.span.stop = k := by
      simpa only [Tiles] using htoken
    have hplace := h.lies.1
    rw [hfirst, leadingTrivia, hread.bare, hstart, hpos, ← hplace]
    rfl
  | _ => rfl

theorem opens_replaceToken (h : Tiles s.source node i j) (word : String) :
    (replaceToken s.source node word).Opens s (some (node.firstLeaf.leadingTrivia s.source))
      node := by
  rintro _ ⟨rfl⟩
  exact (leadingTrivia_firstLeaf h).symm

/-- A class starts with what is left of the words in front of it. -/
theorem opens_class {children : List Node} (htask : task.isBare)
    (hregular : (branch .classDeclaration span marks children).Regular text) :
    Step.Opens s.source
      (some ((branch .classDeclaration span marks children).firstLeaf.leadingTrivia s.source))
      (steps s task (branch .classDeclaration span marks children)) := by
  obtain ⟨hshape, -, hchildren⟩ := hregular.branch
  obtain ⟨⟨front, word, rest, rfl, hword, hfront⟩, -⟩ := hshape nofun
  have haction : ∀ (index : Nat) child, (front ++ word :: rest)[index]? = some child →
      child.isTypePart = false →
      (actionsOf s ⟨.classDeclaration, span, task, front ++ word :: rest⟩)[index]? =
          some (classAction s child) := by
    intro index child hchild hpart
    have hkind : NodeKind.classDeclaration ≠ .variableDeclaration := nofun
    rw [action_eq child hchild (by simp [policy, Policy.holdsList]),
      verdict_of_isCommon hkind (isCommon_of_isBare htask)
        (by simp [not_dropsExport_of_isBare htask]) hpart]
    rfl
  have hleaf := isLeaf_of_isToken hword
  have hstay : classAction s word = .stay := by
    have hlabel : word.label = .token .classKeyword := by
      cases word <;> simp_all [isToken, token?, label]
    simp [classAction, hlabel, TokenKind.isTypeModifier]
  refine opens_branch (by decide) front (fun index child hchild => ?_) fun removal hremoval => ?_
  · have hplace : (front ++ word :: rest)[index]? = some child := by
      rwa [← List.singleton_append, ← List.append_assoc,
        List.getElem?_append_left (List.getElem?_eq_some_iff.1 hchild).1]
    have hopens : child.isTypePart = false ∧ (classAction s child).Opens s
        (some (child.firstLeaf.leadingTrivia s.source)) child := by
      rcases List.mem_append.1 (List.mem_of_getElem? hchild) with hmem | hmem
      · rcases Bool.or_eq_true_iff.1 (hfront child hmem) with hdecorator | hmodifier
        · have hbegins : Begins s .none child :=
            begins_of_head rfl (hchildren child (by simp [hmem])) (.inl hdecorator)
          obtain ⟨span', marks', children', rfl⟩ := exists_of_isKind hdecorator
          exact ⟨rfl, hbegins.opens⟩
        · obtain ⟨token, rfl⟩ : ∃ token, child = leaf token := by
            cases child with
            | leaf token => exact ⟨token, rfl⟩
            | _ => cases hmodifier
          refine ⟨rfl, ?_⟩
          unfold classAction
          dsimp only [label]
          split
          · exact ⟨rfl, by simp⟩
          · exact (begins_of_isLeaf rfl (by simp)).opens
      · obtain rfl := List.mem_singleton.1 hmem
        refine ⟨isTypePart_of_isLeaf hleaf, ?_⟩
        rw [hstay]
        exact (begins_of_isLeaf hleaf (by simp)).opens
    refine ⟨_, haction index child hplace hopens.1, ?_⟩
    cases index with
    | zero =>
      have hsame : (branch .classDeclaration span marks (front ++ word :: rest)).firstLeaf =
          child.firstLeaf := by
        cases front <;> simp_all [firstLeaf, firstLeafOf]
      rw [hsame]
      exact hopens.2
    | succ index => exact hopens.2.weaken
  · have hsame := haction front.length word (by simp) (isTypePart_of_isLeaf hleaf)
    rw [hstay] at hsame
    cases hsame.symm.trans hremoval

theorem opens_start (htask : task.isBare) (hkind : kind ≠ .classConstructor)
    (hregular : first.Regular text) (hfirst : first.startsStatement kind) :
    Step.Opens s.source (some (first.firstLeaf.leadingTrivia s.source))
      (steps s (childTask s ⟨kind, span, task, first :: rest⟩ 0 first) first) := by
  have hbare : (childTask s ⟨kind, span, task, first :: rest⟩ 0 first).isBare :=
    childTask_isBare hkind htask 0 first
  simp only [startsStatement, Bool.or_eq_true, Bool.and_eq_true, beq_iff_eq] at hfirst
  rcases hfirst with ((hleaf | hdecorator) | ⟨rfl, hoperand⟩) | ⟨rfl, hlist⟩
  · exact (begins_of_isLeaf hleaf (childTask_ne_trivia (isCommon_of_isBare htask) 0 first)).opens
  · exact (begins_of_head hbare hregular (.inl hdecorator)).opens
  · exact opens_operand .statementStart hregular hoperand
  · obtain ⟨span', marks', children, rfl⟩ := exists_of_isKind hlist
    obtain ⟨word, rest, rfl, hword⟩ := exists_head (hregular.branch.1 (by decide))
    exact (begins_of_plain_leaf (.inl rfl) (by decide) hbare hword).opens

theorem not_isTypePart_of_startsStatement (h : first.startsStatement kind) :
    first.isTypePart = false := by
  simp only [startsStatement, Bool.or_eq_true, Bool.and_eq_true] at h
  rcases h with ((h | h) | ⟨-, h⟩) | ⟨-, h⟩
  · exact isTypePart_of_isLeaf h
  · exact isTypePart_of_isKind h
  · exact not_isTypePart_of_isOperand h
  · exact isTypePart_of_isKind h

/-- A namespace that becomes a variable and a function starts with the word for the variable. -/
theorem opens_function {lowering : Lowering} (htiles : Tiles s.source first i j)
    (hregular : first.Regular text) (hfirst : first.startsStatement .moduleDeclaration) :
    (functionAction s.source lowering first).Starts s first := by
  have hbegins : Begins s .none first := by
    simp only [startsStatement, Bool.or_eq_true, Bool.and_eq_true] at hfirst
    rcases hfirst with ((hleaf | hdecorator) | ⟨h, -⟩) | ⟨h, -⟩
    · exact begins_of_isLeaf hleaf (by simp)
    · exact begins_of_head rfl hregular (.inl hdecorator)
    · cases h
    · cases h
  have hbody : first.label ≠ .branch .moduleBlock := by
    intro hlabel
    cases first <;> simp_all [startsStatement, label, isLeaf, isKind, kind?]
  unfold functionAction
  split
  iterate 2 exact ⟨opens_replaceToken htiles _, by simp [replaceToken]⟩
  · exact ⟨hbegins.opens, by simp⟩
  · exact absurd ‹_› hbody
  · exact ⟨hbegins.opens, by simp [Action.stay]⟩

/-- A first child that its parent has no task for stays, or gives way to another word. -/
theorem opens_childVerdict (htiles : Tiles s.source first i j)
    (hregular : (branch kind span marks (first :: rest)).Regular text)
    (hstatement : kind.isStatement) (hfirst : first.startsStatement kind)
    (hpolicy : policy kind ≠ .typeSyntax) (hclass : kind ≠ .classDeclaration)
    (htask : task.isBare) :
    (childVerdict s ⟨kind, span, task, first :: rest⟩ 0 first).action.Starts s first := by
  obtain ⟨hshape, -, hchildren⟩ := hregular.branch
  have hstay : Step.Opens s.source (some (first.firstLeaf.leadingTrivia s.source))
      (steps s (childTask s ⟨kind, span, task, first :: rest⟩ 0 first) first) :=
    opens_start htask (by rintro rfl; cases hstatement) (hchildren first List.mem_cons_self) hfirst
  cases kind with
  | block =>
    have hbrace : first.isToken .openBrace := (hshape nofun).1
    have htoken : first.token? = some .openBrace := beq_iff_eq.1 hbrace
    simp only [childVerdict, policy, htoken, Option.isSome_some, if_true]
    exact ⟨hstay, by simp⟩
  | importEqualsDeclaration | exportAssignment =>
    simp only [childVerdict, policy]
    split
    · exact ⟨opens_replaceToken htiles _, by simp [replaceToken]⟩
    · exact ⟨hstay, by simp⟩
  | classDeclaration => exact absurd rfl hclass
  | _ => first
    | exact ⟨hstay, by simp [childVerdict, policy, NodeKind.isTypeNode]⟩
    | exact absurd rfl hpolicy
    | cases hstatement

/-- A statement that is kept starts with its first token, or with what is left behind it. -/
theorem opens_statement (htiles : Tiles s.source node i j) (hregular : node.Regular text)
    (hnode : node.isStatement) (hbelongs : task.Belongs node)
    (hordinary : task.isOrdinary) (hexport : task.dropsExport = false) :
    Step.Opens s.source (some (node.firstLeaf.leadingTrivia s.source)) (steps s task node) := by
  cases node with
  | inserted piece => simp only [Tiles] at htiles
  | leaf token =>
    refine (begins_of_isLeaf rfl fun trivia => ?_).opens
    rintro rfl
    cases hordinary
  | branch kind span marks children =>
    obtain ⟨hstatement, hstarts⟩ := Bool.and_eq_true_iff.1 hnode
    obtain ⟨first, rest, rfl, hfirst⟩ := exists_head hstarts
    obtain ⟨k, hchild, -⟩ := tileAll_cons.1 htiles.tileAll
    by_cases hpolicy : policy kind = .typeSyntax
    · rw [steps, if_pos (by simpa using hpolicy)]
      exact .stay (by simp)
    have hbare : kind ≠ .moduleDeclaration ∨ task.lowers = false → task.isBare := by
      intro h
      cases task with
      | functionBody name =>
        obtain rfl : kind = .moduleBlock := by simpa [isKind, kind?] using hbelongs.body name rfl
        cases hstatement
      | function lowering =>
        refine absurd ?_ (h.resolve_right (by simp [Task.lowers]))
        simpa [isKind, kind?] using hbelongs.function lowering rfl
      | fields plan => cases hordinary
      | _ => first | rfl | cases hexport
    by_cases hclass : kind = .classDeclaration
    · obtain rfl := hclass
      exact opens_class (hbare (.inl (by simp))) hregular
    have hlist : (policy kind).holdsList = false := by
      cases kind <;> first | rfl | cases hstatement
    refine opens_first hpolicy (action_eq first rfl (by simp [hlist])) ?_
    apply verdict_by_task (motive := (·.action.Starts s first))
      (constantOwner?_eq_none 0 (.inl (by rintro rfl; cases hstatement)))
      (by simp [hexport]) (not_isTypePart_of_startsStatement hfirst)
    · rintro lowering rfl
      obtain rfl : kind = .moduleDeclaration := by
        simpa [isKind, kind?] using hbelongs.function lowering rfl
      exact opens_function hchild (hregular.branch.2.2 first List.mem_cons_self) hfirst
    · rintro plan rfl
      cases hordinary
    · intro hlowers
      exact opens_childVerdict hchild hregular hstatement hfirst hpolicy hclass
        (hbare (.inr hlowers))

/-! ## Files -/

/-- What happens to a statement that is in no namespace. -/
inductive Action.Settles (source : String) (statement : Node) : Action → Prop where
  | remove : Settles source statement (.remove .unit)
  | replace {piece : Inserted} : piece.trivia = some (statement.firstLeaf.leadingTrivia source) →
    Settles source statement (.replace piece)
  | keep {task : Task} : task.dropsExport = false → Settles source statement (.keep task [] [])

theorem StatementFate.settles {scope : Scope} {statement : Node} {action : Action}
    (h : StatementFate s scope statement action) (htask : scope.task = .none) :
    action.Settles s.source statement := by
  have howner : exportOwner? scope statement = none := by simp [exportOwner?, htask]
  cases h with
  | remove => exact .remove
  | enum => exact .replace rfl
  | function => exact .keep (by simp [Task.dropsExport, lowering, howner])
  | assigned howner' | constants howner' => cases howner.symm.trans howner'
  | _ => exact .keep rfl

/-- What happens to a statement at the top of a file opens the walk over the rest. -/
theorem opens_action {index : Nat} {statement : Node} (hmem : statements[index]? = some statement)
    (htiles : Tiles s.source statement i j) (hregular : statement.Regular text)
    (hstatement : statement.isStatement) :
    ∃ action, (actionsOf s ⟨.sourceFile, span, .none, statements⟩)[index]? = some action ∧
      action.Opens s (some (statement.firstLeaf.leadingTrivia s.source)) statement := by
  have hkind : NodeKind.sourceFile ≠ .variableDeclaration := nofun
  have hpart : statement.isTypePart = false := by
    cases statement with
    | branch kind span marks children =>
      have hkind := (Bool.and_eq_true_iff.1 hstatement).1
      cases kind <;> first | rfl | cases hkind
    | _ => rfl
  refine ⟨_, action_eq statement hmem (by simp [policy, Policy.holdsList]), ?_⟩
  rw [verdict_of_isCommon hkind rfl (by simp [Task.dropsExport]) hpart]
  simp only [childVerdict, policy]
  have hopens : ∀ {task : Task}, task.Belongs statement → task.isOrdinary →
      task.dropsExport = false → Step.Opens s.source
        (some (statement.firstLeaf.leadingTrivia s.source)) (steps s task statement) :=
    fun hbelongs hordinary hexport =>
      opens_statement htiles hregular hstatement hbelongs hordinary hexport
  split
  · exact hopens (Task.belongs_of_isFree rfl statement) rfl rfl
  · generalize hscope : (⟨.sourceFile, span, .none, statements⟩ : Scope) = scope
    have htask : scope.task = .none := by rw [← hscope]
    have hfate := statementVerdict_fate s scope statement
    have hbelongs := hfate.belongs (by simp [htask])
    have hordinary := hfate.isOrdinary
    generalize (statementVerdict s scope statement).action = action
      at hfate hbelongs hordinary
    cases hfate.settles htask with
    | remove => exact ⟨rfl, by simp⟩
    | replace htrivia => rintro _ ⟨rfl⟩; rw [htrivia]; rfl
    | keep hexport => exact hopens (hbelongs _ _ _ rfl) hordinary hexport

/-- The walk over a file opens with the trivia of its first token. -/
theorem opens_file {token : Token} (hkind : token.kind = .endOfFile)
    (htiles : Tiles s.source (group .sourceFile (statements ++ [leaf token])) i j)
    (hregular : (group .sourceFile (statements ++ [leaf token])).Regular text) :
    Step.Opens s.source (some ((group .sourceFile
        (statements ++ [leaf token])).firstLeaf.leadingTrivia s.source))
      (steps s .none (group .sourceFile (statements ++ [leaf token]))) := by
  obtain ⟨hshape, -, hchildren⟩ := hregular.branch
  have hstatements := hshape nofun
  refine opens_branch (by decide) statements (fun index child hchild => ?_) fun removal => ?_
  · have hmem := List.mem_of_getElem? hchild
    obtain ⟨k, l, htile⟩ := htiles.tileAll.mem hmem
    obtain ⟨action, haction, hopens⟩ := opens_action hchild htile (hchildren child hmem)
      (hstatements child hmem)
    refine ⟨action, haction, ?_⟩
    cases index with
    | zero =>
      have hsame : (group .sourceFile (statements ++ [leaf token])).firstLeaf =
          child.firstLeaf := by
        cases statements <;> simp_all [group, firstLeaf, firstLeafOf]
      rw [hsame]
      exact hopens
    | succ index => exact hopens.weaken
  · rw [action_eq (leaf token) (by simp) (by simp [policy, Policy.holdsList]),
      verdict_endOfFile hkind]
    simp [Action.stay]

/-- The first run of steps that open: no comments are moved, and the first piece that is passed
over, or else the kept leaf, has the given trivia. -/
structure Run.IsFirst (source trivia : String) (run : Run) : Prop where
  still : run.moved = []
  kept : run.passed = [] → run.kept.leadingTrivia source = trivia
  passed : ∀ piece pieces, run.passed = piece :: pieces →
    piece.child.firstLeaf.leadingTrivia source = trivia ∧
      piece.removal.leavesGap piece.first

theorem Step.Opens.runs {steps : List Step} (h : Opens source given steps)
    (hmoved : passed.flatMap Passed.moved = [])
    (hpassed : ∀ piece pieces, passed = piece :: pieces →
      piece.child.firstLeaf.leadingTrivia source = trivia ∧
        piece.removal.leavesGap piece.first) (hgiven : passed = [] → given = some trivia) :
    ∃ run runs, runsFrom passed steps = run :: runs ∧ run.IsFirst source trivia := by
  induction h generalizing passed with
  | tell findings _ ih | start atStart _ ih => exact ih hmoved hpassed hgiven
  | keep htrivia | stay htrivia =>
    exact ⟨_, _, rfl, hmoved, fun hnone => htrivia trivia (hgiven hnone), hpassed⟩
  | @pass given child removal first rest hremoval htrivia _ ih =>
    have hnone : Passed.moved ⟨child, removal, first⟩ = [] := by
      cases removal <;> first | rfl | cases hremoval
    refine ih (by simp [hmoved, hnone]) ?_ (by simp)
    intro piece pieces heq
    cases passed with
    | nil =>
      obtain ⟨rfl, -⟩ := List.cons.inj heq
      exact ⟨htrivia trivia (hgiven rfl), hremoval⟩
    | cons other others =>
      obtain ⟨rfl, -⟩ := List.cons.inj heq
      exact hpassed other others rfl

/-- In front of the first leaf stands nothing but what waited and its own trivia. -/
theorem leavesAlong_first {steps : List Step} (hof : ∀ step ∈ steps, step.IsOf source) {w : Walk}
    (h : w.pending = pendingAfter source passed) (hchar : w.lastChar = none) {run : Run}
    {runs : List Run} (hruns : runsFrom passed steps = run :: runs) :
    ∃ new rest, leavesAlong source w steps = new :: rest ∧ new.leadingTrivia source =
      (pendingAfter source run.passed).apply (run.kept.leadingTrivia source)
        (run.kept.isToken .endOfFile) := by
  have hdelivers := leavesAlong_delivers hof h
  cases hleaves : leavesAlong source w steps with
  | nil => simp [hruns, hleaves] at hdelivers
  | cons new rest =>
    obtain ⟨between, -, -, node, _, -, hmute, -, hnode, -, hfirst, rfl⟩ :=
      leavesAlong_opens hof hleaves passed
    obtain ⟨rfl, -⟩ := List.cons.inj (hruns.symm.trans hfirst)
    refine ⟨_, rest, rfl, ?_⟩
    have hlast : (walkAlong source w between).lastChar = none :=
      (walkAlong_of_isMute hmute).1.trans hchar
    rw [leadingTrivia_visitLeaf hnode, keptTrivia_eq, ← walkAlong_pending h]
    simp [lead, needsSemicolon, hlast]

/-- What the first piece that is passed over leaves, with the opening of the text unless that is cut
off as a comment about the piece. -/
theorem Run.IsFirst.gap? {piece : Passed} {pieces : List Passed} {run : Run}
    (h : run.IsFirst source trivia) (hpassed : run.passed = piece :: pieces) :
    ∃ gap, piece.gap? source = some (gap, true) ∧
      pendingAfter source run.passed = { gap := some (gap, true) } ∧
      (gap = trivia ∨ piece.removal = .unit ∧ gap = unitGap trivia) := by
  obtain ⟨htrivia, hremoval⟩ := h.passed piece pieces hpassed
  have hgap : ∃ gap, piece.gap? source = some (gap, true) ∧
      (gap = trivia ∨ piece.removal = .unit ∧ gap = unitGap trivia) := by
    unfold Passed.gap?
    dsimp only
    rw [htrivia]
    cases hkind : piece.removal with rw [hkind] at hremoval
    | unit => exact ⟨_, congrArg (fun first => some (_, first)) hremoval, .inr ⟨rfl, rfl⟩⟩
    | modifier => exact ⟨_, congrArg (fun first => some (_, first)) hremoval, .inl rfl⟩
    | opening => exact ⟨_, rfl, .inl rfl⟩
    | inside | silent => cases hremoval
  obtain ⟨gap, hgap, hcases⟩ := hgap
  refine ⟨gap, hgap, ?_, hcases⟩
  have hmoved : run.passed.flatMap Passed.moved = [] := h.still
  rw [pendingAfter, hmoved, hpassed, List.findSome?_cons, hgap]
  rfl

end Erasure

open Erasure Erasure.Step

section Files

variable {variant : Variant} {file text : String} {tree : SyntaxTree}

/-- The erased text starts with what waited for the first leaf that is kept, and its own trivia. -/
theorem SyntaxTree.exists_first_run (hparse : SyntaxTree.parseAs variant file text = .ok tree)
    (options : Options) : ∃ run runs, tree.runs options = run :: runs ∧
      run.IsFirst text (tree.root.firstLeaf.leadingTrivia text) ∧
      ((pendingAfter text run.passed).apply (run.kept.leadingTrivia text)
        (run.kept.isToken .endOfFile)).toList <+: (tree.erase options).tree.text.toList := by
  have hregular := SyntaxTree.parseAs_regular hparse
  have htext := (SyntaxTree.erase_delivers hparse options).1
  obtain ⟨rfl, htiles, statements, token, hroot, hkind⟩ := SyntaxTree.parseAs_tiles hparse
  have hof : ∀ step ∈ steps (.ofTree options tree.source tree.root) .none tree.root,
      step.IsOf tree.source := steps_isOf tree.root .none htiles
  have hopens : Step.Opens tree.source (some (tree.root.firstLeaf.leadingTrivia tree.source))
      (steps (.ofTree options tree.source tree.root) .none tree.root) := by
    generalize hs : Setting.ofTree options tree.source tree.root = s
    have hsource : s.source = tree.source := by rw [← hs]; rfl
    rw [hroot] at htiles hregular ⊢
    rw [← hsource] at htiles ⊢
    exact opens_file hkind htiles hregular
  obtain ⟨run, runs, hruns, hfirst⟩ := hopens.runs
    (rfl : ([] : List Passed).flatMap Passed.moved = []) (by simp) fun _ => rfl
  obtain ⟨new, rest, hleaves, htrivia⟩ := leavesAlong_first (w := {}) hof rfl rfl hruns
  refine ⟨run, runs, hruns, hfirst, ?_⟩
  rw [htext, leaves_erase, hleaves, ← List.singleton_append, spell_append, spell_single, htrivia,
    String.toList_append, String.toList_append, List.append_assoc]
  exact List.prefix_append _ _

end Files

/-- A byte order mark or a first line with `#!` stays in front of the text if the first token does,
or what takes its place. If a piece in front of the first kept leaf goes, the opening stands in what
the first such piece leaves, unless it holds the sign of a comment and that piece goes with its
comments. It is then handed on with a comment, or in front of a leaf that is not the end of the file
if that leaf has a comment or no newline in front of it, or the gap has a newline. Otherwise it is
lost, and the text starts with the own trivia of the leaf. -/
theorem SyntaxTree.erase_keeps_opening {variant : Variant} {file text : String} {tree : SyntaxTree}
    (hparse : SyntaxTree.parseAs variant file text = .ok tree) (hopening : opening text.toList ≠ [])
    (options : Options) :
    ∃ run runs, tree.runs options = run :: runs ∧
      (run.passed = [] → opening text.toList <+: (tree.erase options).tree.text.toList) ∧
      ∀ piece pieces, run.passed = piece :: pieces → ∃ gap, piece.gap? text = some (gap, true) ∧
        ((piece.removal = .unit → opensComment (opening text.toList) = false) →
          opening text.toList <+: gap.toList) ∧
        (opening text.toList <+: gap.toList →
          if handsOn gap (run.kept.leadingTrivia text) (run.kept.isToken .endOfFile) then
            opening text.toList <+: (tree.erase options).tree.text.toList
          else
            (run.kept.leadingTrivia text).toList <+: (tree.erase options).tree.text.toList) := by
  obtain ⟨run, runs, hruns, hfirst, houtput⟩ := SyntaxTree.exists_first_run hparse options
  obtain ⟨rfl, htiles, -⟩ := SyntaxTree.parseAs_tiles hparse
  obtain ⟨hstarts, hprefix⟩ := htiles.opening
  refine ⟨run, runs, hruns, fun hnone => ?_, fun piece pieces hpassed => ?_⟩
  · have happly : (pendingAfter tree.source run.passed).apply (run.kept.leadingTrivia tree.source)
        (run.kept.isToken .endOfFile) = tree.root.firstLeaf.leadingTrivia tree.source := by
      rw [hnone, apply_of_isEmpty (by simp [pendingAfter, movedComments, Pending.isEmpty]),
        hfirst.kept hnone]
    rw [happly] at houtput
    exact hprefix.trans houtput
  · obtain ⟨gap, hgap, hpending, hcases⟩ := hfirst.gap? hpassed
    refine ⟨gap, hgap, fun hnone => ?_, fun hin => ?_⟩
    · rcases hcases with rfl | ⟨hunit, rfl⟩
      · exact hprefix
      · refine isPrefix_unitGap hprefix (hnone hunit) ((opening_getLast? _).imp_left fun hall => ?_)
        exact hprefix.eq_of_length_le (by rw [hall]; exact hstarts.length_le)
    · have happly := isPrefix_apply hin hopening (opening_dropLast _)
        (run.kept.leadingTrivia tree.source) (run.kept.isToken .endOfFile)
      rw [hpending] at houtput
      split at happly
      · rw [if_pos ‹_›]
        exact happly.trans houtput
      · rw [if_neg ‹_›]
        rwa [happly] at houtput

/-- A mark that a newline keeps, though the interface behind it goes. -/
theorem SyntaxTree.erase_keeps_opening_interface :
    ∃ tree, SyntaxTree.parseAs .standard "a.ts" "\ufeff\ninterface I \x7b\x7d\nfoo()" = .ok tree ∧
      opening "\ufeff\ninterface I \x7b\x7d\nfoo()".toList ≠ [] ∧
      ∃ run runs, tree.runs {} = run :: runs ∧ run.passed ≠ [] ∧
        ['\ufeff'] <+: (tree.erase {}).tree.text.toList := by
  obtain ⟨tree, hparse, hchecked⟩ : ∃ tree, SyntaxTree.parseAs .standard "a.ts"
      "\ufeff\ninterface I \x7b\x7d\nfoo()" = .ok tree ∧
        ∀ run ∈ (tree.runs {}).head?, ∃ piece ∈ run.passed.head?,
          piece.gap? "\ufeff\ninterface I \x7b\x7d\nfoo()" = some ("\ufeff\n", true) ∧
            handsOn "\ufeff\n" (run.kept.leadingTrivia "\ufeff\ninterface I \x7b\x7d\nfoo()")
              (run.kept.isToken .endOfFile) :=
    SyntaxTree.exists_checked (by decide +kernel)
  have hopening : opening "\ufeff\ninterface I \x7b\x7d\nfoo()".toList = ['\ufeff'] := by
    decide +kernel
  obtain ⟨run, runs, hruns, -, hgone⟩ :=
    SyntaxTree.erase_keeps_opening hparse (by rw [hopening]; simp) {}
  obtain ⟨piece, hpiece, hhands⟩ := hchecked run (by rw [hruns]; rfl)
  obtain ⟨pieces, hpassed⟩ := List.head?_eq_some_iff.1 hpiece
  obtain ⟨gap, hgap, -, hkept⟩ := hgone piece pieces hpassed
  obtain rfl : "\ufeff\n" = gap := by simpa [hhands.1] using hgap
  rw [hopening, if_pos hhands.2] at hkept
  exact ⟨tree, hparse, by rw [hopening]; simp, run, runs, hruns, by simp [hpassed],
    hkept ⟨['\n'], by decide +kernel⟩⟩

/-- A mark in front of a removed interface is lost if the next token starts a line. -/
theorem SyntaxTree.erase_loses_opening :
    ∃ tree, SyntaxTree.parseAs .standard "a.ts" "\ufeffinterface I \x7b\x7d\nfoo()" = .ok tree ∧
      opening "\ufeffinterface I \x7b\x7d\nfoo()".toList = ['\ufeff'] ∧
      (tree.erase {}).tree.text = "\nfoo()" :=
  SyntaxTree.exists_checked (by decide +kernel)

end Untype
