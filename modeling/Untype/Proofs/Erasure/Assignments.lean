-- The body of a constructor whose parameters declare fields. The fields are
-- assigned in one place, and the rest is what is left of any other block, up
-- to the trivia of the closing brace.
import Untype.Proofs.Erasure.Declarations
import Untype.Proofs.Erasure.Restricted
import Untype.Proofs.Erasure.Runs

namespace Untype

open Untype.Node Untype.Text

namespace Erasure

open Step

variable {source : String} {w : Walk} {s : Setting}

/-! ## Steps that keep a leaf last -/

/-- The step neither keeps anything nor passes over anything. -/
def Step.isIdle : Step → Bool
  | .tell _ | .start _ => true
  | _ => false

/-- The last thing that the steps do is to keep this leaf. -/
def EndsWith (steps : List Step) (leaf : Node) : Prop :=
  ∃ front back, steps = front ++ .keep leaf :: back ∧ ∀ step ∈ back, step.isIdle

theorem runsFrom_of_isIdle {steps : List Step} (h : ∀ step ∈ steps, step.isIdle)
    (passed : List Passed) : runsFrom passed steps = [] ∧ passedAfter passed steps = passed := by
  induction steps with
  | nil => exact ⟨rfl, rfl⟩
  | cons step steps ih =>
    rw [List.forall_mem_cons] at h
    cases step with
    | tell | start => exact ih h.2
    | keep | stay | pass => cases h.1

theorem leavesAlong_of_isIdle {steps : List Step} (h : ∀ step ∈ steps, step.isIdle) :
    leavesAlong source w steps = [] := by
  induction steps generalizing w with
  | nil => rfl
  | cons step steps ih =>
    rw [List.forall_mem_cons] at h
    cases step with
    | tell | start => exact ih h.2
    | keep | stay | pass => cases h.1

theorem isIdle_leaveSteps (policy : Policy) : ∀ step ∈ leaveSteps policy, step.isIdle := by
  unfold leaveSteps
  split <;> simp [Step.isIdle]

namespace EndsWith

variable {steps front back : List Step} {leaf : Node}

theorem append_idle (h : EndsWith steps leaf) (hback : ∀ step ∈ back, step.isIdle) :
    EndsWith (steps ++ back) leaf := by
  obtain ⟨front, rest, rfl, hrest⟩ := h
  exact ⟨front, rest ++ back, by simp, List.forall_mem_append.2 ⟨hrest, hback⟩⟩

theorem append_left (h : EndsWith back leaf) (front : List Step) :
    EndsWith (front ++ back) leaf := by
  obtain ⟨front', rest, rfl, hrest⟩ := h
  exact ⟨front ++ front', rest, by simp, hrest⟩

theorem passedAfter_eq (h : EndsWith steps leaf) (passed : List Passed) :
    passedAfter passed steps = [] := by
  obtain ⟨front, rest, rfl, hrest⟩ := h
  rw [passedAfter_append]
  exact (runsFrom_of_isIdle hrest []).2

theorem getLast?_runsFrom (h : EndsWith steps leaf) (passed : List Passed) :
    (runsFrom passed steps).getLast?.map Run.kept = some leaf := by
  obtain ⟨front, rest, rfl, hrest⟩ := h
  rw [runsFrom_append, runsFrom, (runsFrom_of_isIdle hrest []).1]
  simp

end EndsWith

/-! ## Places in a list -/

/-- The piece, whether it stood first in its list or not. -/
def Passed.unplaced (piece : Passed) : Passed := { piece with first := false }

/-- The run, whichever of its pieces stood first. -/
def Run.unplaced (run : Run) : Run := { run with passed := run.passed.map Passed.unplaced }

/-- The step, wherever it is made. -/
def Step.unplaced : Step → Step
  | .start _ => .start false
  | .pass child removal _ => .pass child removal false
  | step => step

theorem runsFrom_unplaced (passed : List Passed) (steps : List Step) :
    (runsFrom passed steps).map Run.unplaced =
      runsFrom (passed.map Passed.unplaced) (steps.map Step.unplaced) := by
  induction steps generalizing passed with
  | nil => rfl
  | cons step steps ih =>
    cases step with
    | tell | start => exact ih passed
    | pass child removal first =>
      exact (ih _).trans (by simp [runsFrom, Step.unplaced, Passed.unplaced])
    | keep node => exact congrArg (List.cons _) (ih [])
    | stay node =>
      simp only [runsFrom, List.map_cons, Step.unplaced, List.cons_append, List.map_append, ih,
        List.map_map]
      rfl

theorem passedAfter_unplaced (passed : List Passed) (steps : List Step) :
    (passedAfter passed steps).map Passed.unplaced =
      passedAfter (passed.map Passed.unplaced) (steps.map Step.unplaced) := by
  induction steps generalizing passed with
  | nil => rfl
  | cons step steps ih =>
    cases step with
    | tell | start => exact ih passed
    | pass child removal first =>
      exact (ih _).trans (by simp [passedAfter, Step.unplaced, Passed.unplaced])
    | keep | stay => exact ih []

theorem enterSteps_unplaced (policy : Policy) (child : Node) (lastKept lastKept' : Option Label) :
    (enterSteps policy child lastKept).map Step.unplaced =
      (enterSteps policy child lastKept').map Step.unplaced := by
  unfold enterSteps
  split <;> rfl

theorem stepsAll_unplaced (s : Setting) (policy : Policy) (lastKept lastKept' : Option Label)
    (acts : List Action) (children : List Node) :
    (stepsAll s policy lastKept acts children).map Step.unplaced =
      (stepsAll s policy lastKept' acts children).map Step.unplaced := by
  induction children generalizing acts lastKept lastKept' with
  | nil => rfl
  | cons child children ih =>
    rw [stepsAll, stepsAll]
    cases acts.headD .stay with
    | remove removal =>
      exact congrArg (List.cons (.pass child removal false)) (ih lastKept lastKept' acts.tail)
    | replace piece | keep task before after =>
      simp only [List.map_append, enterSteps_unplaced policy child lastKept lastKept']

/-! ## The call of the base class -/

section Ends

variable {s : Setting} {task : Task} {kind : NodeKind} {span : Span} {marks : Marks}

theorem lastLeaf_concat (front : List Node) (last : Node) :
    (branch kind span marks (front ++ [last])).lastLeaf = last.lastLeaf := by
  have hlast : ∀ (fallback : Node) (nodes : List Node),
      lastLeafOf fallback (nodes ++ [last]) = last.lastLeaf := by
    intro fallback nodes
    induction nodes with
    | nil => rfl
    | cons node nodes ih => cases nodes <;> exact ih
  exact hlast _ front

theorem EndsWith.branch (front : List Node) {last : Node} (hpolicy : policy kind = .plain)
    (htask : task.isCommon) (hexport : task.dropsExport = false) (hpart : last.isTypePart = false)
    (h : EndsWith (steps s (childTask s ⟨kind, span, task, front ++ [last]⟩ front.length last) last)
      last.lastLeaf) :
    EndsWith (steps s task (branch kind span marks (front ++ [last])))
      (branch kind span marks (front ++ [last])).lastLeaf := by
  have hchild : (front ++ [last])[front.length]? = some last := by simp
  have haction : (actionsOf s ⟨kind, span, task, front ++ [last]⟩)[front.length]? =
        some (.keep (childTask s ⟨kind, span, task, front ++ [last]⟩ front.length last) [] []) :=
    action_plain last (.inl hpolicy) (by rintro rfl; cases hpolicy) htask (by simp [hexport])
      hchild hpart
  obtain ⟨steps', lastKept, hsteps⟩ := stepsAll_concat s (policy kind) none last haction
  rw [lastLeaf_concat, steps_branch (by simp [hpolicy]), hsteps, ← List.cons_append]
  exact ((h.append_left _).append_idle (isIdle_leaveSteps _)).append_left _

theorem endsWith_leaf {node : Node} (htask : ∀ text, task ≠ .trivia text) (hnode : node.isLeaf) :
    EndsWith (steps s task node) node.lastLeaf := by
  have hdress : task.dress node = node := by
    cases task with
    | trivia text => exact absurd rfl (htask text)
    | _ => rfl
  cases node with
  | branch kind span marks children => cases hnode
  | _ => exact ⟨[], [], by simp only [steps, hdress]; rfl, by simp⟩

/-- The steps over the call of the base class end with its last token. -/
theorem endsWith_superCall {text : String} {statement : Node} (hregular : statement.Regular text)
    (h : isSuperCall statement) : EndsWith (steps s .none statement) statement.lastLeaf := by
  obtain ⟨hkind, hhead⟩ := Bool.and_eq_true_iff.1 h
  obtain ⟨span, marks, children, rfl⟩ := exists_of_isKind hkind
  obtain ⟨hshape, -, hchildren⟩ := hregular.branch
  obtain ⟨value, stop, rfl, hstop, -⟩ := hshape (by decide)
  have hcall : value.isKind .callExpression := (Bool.and_eq_true_iff.1 hhead).1
  rcases List.eq_nil_or_concat' stop with rfl | ⟨stop, last, rfl⟩
  · refine EndsWith.branch [] rfl rfl rfl (isTypePart_of_isKind hcall) ?_
    obtain ⟨span', marks', nodes, rfl⟩ := exists_of_isKind hcall
    obtain ⟨operand, rest, closing, rfl, -, hclosing⟩ :=
      (hchildren _ List.mem_cons_self).branch.1 (by decide)
    refine EndsWith.branch (operand :: rest) rfl rfl rfl
      (isTypePart_of_isLeaf (isLeaf_of_isToken hclosing))
      (endsWith_leaf ?_ (isLeaf_of_isToken hclosing))
    simp [childTask]
  · have hlast := isLeaf_of_isToken (hstop last (by simp))
    rw [← List.cons_append]
    refine EndsWith.branch (value :: stop) rfl rfl rfl (isTypePart_of_isLeaf hlast)
      (endsWith_leaf ?_ hlast)
    simp [childTask]

end Ends

/-! ## The body of a constructor -/

/-- The indentation of the assignments: what stands on the line of the first statement before it, or
one level more than the line of the constructor. -/
def fieldIndent (source unit : String) (start : Nat) (body : Node) : String :=
  let statements := body.children.filter fun child => child.token?.isNone
  (statements.head?.bind fun first => trailingIndent? (first.firstLeaf.leadingTrivia source)).getD
    (lineIndent source start ++ unit)

/-- The assignment of a field. -/
def fieldAssignment (source unit : String) (start : Nat) (body : Node) (name : String) : Inserted :=
  { anchor := start
    text := "this." ++ name ++ " = " ++ name ++ ";"
    trivia := some ("\n" ++ fieldIndent source unit start body) }

/-- The closing brace of the body. If it is on the line of what comes before it, it gets a line of
its own, in place of its trivia. -/
def shutBrace (source : String) (start : Nat) (closing : Node) : Node :=
  if hasLineBreak (closing.leadingTrivia source) then closing
  else (closing.setTrivia ("\n" ++ lineIndent source start)).markDirty

/-- The assignments come behind this child: the first call of the base class, or the opening
brace. -/
def IsAnchor (before : List Node) (anchor : Node) (after : List Node) : Prop :=
  isSuperCall anchor ∧ (∀ child ∈ before, isSuperCall child = false) ∨
    before = [] ∧ anchor.isToken .openBrace ∧ ∀ child ∈ after, isSuperCall child = false

/-- What the body of a constructor is left with. An ordinary block would be left with what the runs
deliver. The assignments come between two of these, and nothing else changes but the trivia of the
closing brace. -/
inductive AssignsFields (source unit : String) (start : Nat) (names : List String) (body : Node)
    (runs : List Run) (leaves : List Node) : Prop where
  | intro {before after older newer : List Node} {anchor closing left : Node}
    {front back back' : List Run} {waiting waiting' : List Passed}
    (hchildren : body.children = before ++ anchor :: (after ++ [closing]))
    (hanchor : IsAnchor before anchor after) (hclosing : closing.isToken .closeBrace)
    (hruns : runs = front ++ back ++ [⟨waiting, closing⟩])
    (hlast : front.getLast?.map Run.kept = some anchor.lastLeaf)
    (hback : back'.map Run.unplaced = back.map Run.unplaced)
    (hwaiting : waiting'.map Passed.unplaced = waiting.map Passed.unplaced)
    (hleaves : leaves = older ++
      names.map (inserted ∘ fieldAssignment source unit start body) ++ newer ++ [left])
    (holder : List.Forall₂ (Run.Delivers source) front older)
    (hnewer : List.Forall₂ (Run.Delivers source) back' newer)
    (hleft : Run.Delivers source ⟨waiting', shutBrace source start closing⟩ left) :
    AssignsFields source unit start names body runs leaves

/-- A block has a place for assignments, in front of its closing brace. -/
theorem exists_anchor {children : List Node}
    (hopening : children.head?.any (isToken .openBrace))
    (hclosing : children.getLast?.any (isToken .closeBrace)) :
    ∃ before anchor after closing, children = before ++ anchor :: (after ++ [closing]) ∧
      before.length = (children.findIdx? isSuperCall).getD 0 ∧ IsAnchor before anchor after ∧
      closing.isToken .closeBrace := by
  obtain ⟨front, closing, rfl⟩ : ∃ front closing, children = front ++ [closing] := by
    rcases List.eq_nil_or_concat' children with rfl | hconcat
    · cases hopening
    · exact hconcat
  have hbrace : closing.isToken .closeBrace := by simpa using hclosing
  have hnoCall : isSuperCall closing = false := by
    rw [isSuperCall, isKind_of_isLeaf (isLeaf_of_isToken hbrace), Bool.false_and]
  have hfind : (front ++ [closing]).findIdx? isSuperCall = front.findIdx? isSuperCall := by
    simp [List.findIdx?_append, hnoCall]
  rw [hfind]
  cases hposition : front.findIdx? isSuperCall with
  | some index =>
    obtain ⟨hlt, hcall, hbefore⟩ := List.findIdx?_eq_some_iff_getElem.1 hposition
    have hget := List.getElem?_eq_getElem hlt
    generalize front[index] = anchor at hcall hget
    obtain ⟨before, after, rfl, rfl⟩ := exists_append_of_getElem? hget
    refine ⟨before, anchor, after, closing, by simp, rfl,
      .inl ⟨hcall, fun child hchild => ?_⟩, hbrace⟩
    obtain ⟨place, hplace, rfl⟩ := List.mem_iff_getElem.1 hchild
    simpa [hplace] using hbefore place hplace
  | none =>
    cases front with
    | nil =>
      have hopening : closing.isToken .openBrace := by simpa using hopening
      rw [isToken_of_ne hbrace (by decide)] at hopening
      cases hopening
    | cons opening inner =>
      refine ⟨[], opening, inner, closing, rfl, rfl, .inr ⟨rfl, by simpa using hopening, ?_⟩,
        hbrace⟩
      exact fun child hchild => List.findIdx?_eq_none_iff.1 hposition child
        (List.mem_cons_of_mem _ hchild)

section Bodies

variable {s : Setting} {span : Span} {children : List Node} {plan : FieldPlan} {index : Nat}
  {child : Node}
variable {text : String} {before after : List Node} {anchor closing : Node} {marks : Marks}

theorem childVerdict_of_fields (hlast : index + 1 ≠ children.length) :
    childVerdict s ⟨.block, span, .fields plan, children⟩ index child =
      childVerdict s ⟨.block, span, .none, children⟩ index child := by
  have htask : childTask s ⟨.block, span, .fields plan, children⟩ index child = .none := by
    simp only [childTask]
    split <;> simp [hlast]
  simp only [childVerdict, policy, htask]
  rfl

theorem verdict_of_fields (hposition : index ≠ plan.position)
    (hlast : index + 1 ≠ children.length) :
    verdict s ⟨.block, span, .fields plan, children⟩ index child =
      verdict s ⟨.block, span, .none, children⟩ index child := by
  unfold verdict
  rw [constantOwner?_eq_none index (.inl (by simp)), constantOwner?_eq_none index (.inl (by simp))]
  simp [childVerdict_of_fields hlast, hposition, Task.dropsExport]

/-- A block keeps the call of the base class and its braces. -/
theorem childVerdict_of_anchor (hregular : child.Regular text)
    (hchild : isSuperCall child ∨ child.isLeaf) :
    (childVerdict s ⟨.block, span, .none, children⟩ index child).action = .stay ∧
      child.isTypePart = false := by
  rcases hchild with hcall | hleaf
  · obtain ⟨hkind, hhead⟩ := Bool.and_eq_true_iff.1 hcall
    obtain ⟨span', marks, nodes, rfl⟩ := exists_of_isKind hkind
    obtain ⟨value, stop, rfl, hstop, -⟩ := hregular.branch.1 (by decide)
    have hvalue := not_isToken_of_isKind (Bool.and_eq_true_iff.1 hhead).1 .declareKeyword
    have hdeclare : (value :: stop).any (isToken .declareKeyword) = false := by
      rw [List.any_cons, hvalue, Bool.false_or, List.any_eq_false]
      exact fun part hpart => by simp [isToken_of_ne (hstop part hpart)]
    refine ⟨?_, isTypePart_of_isKind hkind⟩
    simp [childVerdict, policy, token?, statementVerdict, kind?, hasToken, Node.children, hdeclare,
      keepStatement, exportOwner?]
  · cases child with
    | leaf token | inserted piece => exact ⟨rfl, rfl⟩
    | branch => cases hleaf

theorem verdict_of_position (hposition : index = plan.position) (hpart : child.isTypePart = false) :
    (verdict s ⟨.block, span, .fields plan, children⟩ index child).action =
      (childVerdict s ⟨.block, span, .fields plan, children⟩ index child).action.followedBy
        plan.assignments := by
  have hnone : ∀ kind : NodeKind, kind.isTypePart → child.isKind kind = false := by
    intro kind hkind
    refine Bool.eq_false_iff.2 fun hchild => ?_
    rw [isTypePart_of_isKind hchild, hkind] at hpart
    cases hpart
  unfold verdict
  rw [constantOwner?_eq_none index (.inl (by simp))]
  simp [hnone .annotatedType rfl, hnone .typeParameters rfl, hnone .typeArguments rfl, hposition,
    Task.dropsExport]

/-- Behind the anchor come the assignments. -/
theorem action_of_anchor (hregular : child.Regular text)
    (hchild : isSuperCall child ∨ child.isLeaf) (hposition : index = plan.position)
    (hlast : index + 1 ≠ children.length) :
    (verdict s ⟨.block, span, .none, children⟩ index child).action = .keep .none [] [] ∧
      (verdict s ⟨.block, span, .fields plan, children⟩ index child).action =
        .keep .none [] plan.assignments := by
  obtain ⟨hstay, hpart⟩ : (childVerdict s ⟨.block, span, .none, children⟩ index child).action =
    .stay ∧ child.isTypePart = false := childVerdict_of_anchor hregular hchild
  refine ⟨?_, ?_⟩
  · rw [verdict_of_isCommon (by simp) rfl (by simp [Task.dropsExport]) hpart, hstay]
    rfl
  · rw [verdict_of_position hposition hpart, childVerdict_of_fields hlast, hstay]
    rfl

/-- The closing brace stays, with new trivia if the plan has some. -/
theorem action_of_closing (hbrace : child.isToken .closeBrace) (hposition : index ≠ plan.position)
    (hlast : index + 1 = children.length) :
    (verdict s ⟨.block, span, .none, children⟩ index child).action = .keep .none [] [] ∧
      (verdict s ⟨.block, span, .fields plan, children⟩ index child).action =
        .keep ((plan.closing.map Task.trivia).getD .none) [] [] := by
  cases child with
  | leaf token =>
    refine ⟨?_, ?_⟩
    · rw [verdict_of_isCommon (by simp) rfl (by simp [Task.dropsExport]) rfl]
      rfl
    · unfold verdict
      rw [constantOwner?_eq_none index (.inl (by simp))]
      cases hclosing : plan.closing <;>
        simp [hposition, Task.dropsExport, childVerdict, policy, childTask, hlast, hclosing,
          isKind, kind?, token?]
  | _ => cases hbrace

theorem mapIdx_around {α β : Type} (f : Nat → α → β) (before after : List α) (a b : α) :
    (before ++ a :: (after ++ [b])).mapIdx f = before.mapIdx f ++ f before.length a ::
      (after.mapIdx (fun index => f (index + 1 + before.length)) ++
        [f (after.length + 1 + before.length) b]) := by
  simp [List.mapIdx_append, List.mapIdx_cons]

theorem actions_eq_mapIdx {scope : Scope} (h : (policy scope.kind).holdsList = false) :
    actionsOf s scope =
      scope.children.mapIdx fun index child => (verdict s scope index child).action := by
  refine List.ext_getElem? fun index => ?_
  rw [actions_getElem?_of_not_holdsList h, List.getElem?_mapIdx]

/-- The actions for a block and for the body of a constructor differ in two places. -/
theorem actions_of_fields (s : Setting) (span : Span) (hregular : anchor.Regular text)
    (hanchor : IsAnchor before anchor after) (hclosing : closing.isToken .closeBrace)
    (hposition : before.length = plan.position)
    (hchildren : children = before ++ anchor :: (after ++ [closing])) :
    ∃ front back, front.length = before.length ∧ back.length = after.length ∧
      actionsOf s ⟨.block, span, .none, children⟩ =
        front ++ .keep .none [] [] :: (back ++ [.keep .none [] []]) ∧
      actionsOf s ⟨.block, span, .fields plan, children⟩ =
        front ++ .keep .none [] plan.assignments ::
          (back ++ [.keep ((plan.closing.map Task.trivia).getD .none) [] []]) := by
  have hlength : children.length = before.length + 1 + after.length + 1 := by
    rw [hchildren]
    simp
    omega
  have hplace : before.length + 1 ≠ children.length := by omega
  obtain ⟨hanchorStays, hassigns⟩ :
      (verdict s ⟨.block, span, .none, children⟩ before.length anchor).action = _ ∧
      (verdict s ⟨.block, span, .fields plan, children⟩ before.length anchor).action = _ :=
    action_of_anchor hregular (hanchor.imp And.left fun h => isLeaf_of_isToken h.2.1)
      hposition hplace
  have hend : after.length + 1 + before.length ≠ plan.position := by omega
  have hlast : after.length + 1 + before.length + 1 = children.length := by omega
  obtain ⟨hclosingStays, hshuts⟩ :
      (verdict s ⟨.block, span, .none, children⟩ (after.length + 1 + before.length)
        closing).action = _ ∧
      (verdict s ⟨.block, span, .fields plan, children⟩ (after.length + 1 + before.length)
        closing).action = _ := action_of_closing hclosing hend hlast
  refine ⟨before.mapIdx fun index child =>
      (verdict s ⟨.block, span, .none, children⟩ index child).action,
    after.mapIdx fun index child =>
      (verdict s ⟨.block, span, .none, children⟩ (index + 1 + before.length) child).action,
    List.length_mapIdx, List.length_mapIdx, ?_, ?_⟩
  · refine (actions_eq_mapIdx rfl).trans ((congrArg (List.mapIdx _) hchildren).trans ?_)
    rw [mapIdx_around, hanchorStays, hclosingStays]
  · refine (actions_eq_mapIdx rfl).trans ((congrArg (List.mapIdx _) hchildren).trans ?_)
    rw [mapIdx_around, hassigns, hshuts]
    congr 1
    · refine List.mapIdx_eq_mapIdx_iff.2 fun index hindex => ?_
      rw [verdict_of_fields (by omega) (by omega)]
    · congr 2
      refine List.mapIdx_eq_mapIdx_iff.2 fun index hindex => ?_
      rw [verdict_of_fields (by omega) (by omega)]

/-- The steps over a block that keeps one of its children, between two pieces of which it also keeps
the second. -/
theorem steps_block {task task' : Task} {acts acts' : List Action} {lastKept : Option Label}
    {pieces : List Inserted} (hchildren : children = before ++ anchor :: (after ++ [closing]))
    (hlength : acts'.length = after.length)
    (hfront : ∀ acts' rest, stepsAll s (policy .block) none (acts ++ acts') (before ++ rest) =
      stepsAll s (policy .block) none acts before ++ stepsAll s (policy .block) lastKept acts' rest)
    (hactions : actionsOf s ⟨.block, span, task, children⟩ =
      acts ++ .keep .none [] pieces :: (acts' ++ [.keep task' [] []])) :
    ∃ enter, (∀ step ∈ enter, step.isIdle) ∧
      steps s task (branch .block span marks children) =
        .tell ((verdicts s ⟨.block, span, task, children⟩).filterMap (·.finding)) ::
          (stepsAll s (policy .block) none acts before ++
            (enterSteps (policy .block) anchor lastKept ++ steps s .none anchor) ++
            .start false :: (pieceSteps .statements pieces ++
              (stepsAll s (policy .block) (some (keptLabel anchor pieces)) acts' after ++
                (enter ++ steps s task' closing ++ [.start false])))) := by
  obtain ⟨lastKept', hback⟩ :=
    stepsAll_append s (policy .block) (some (keptLabel anchor pieces)) hlength
  refine ⟨enterSteps (policy .block) closing lastKept',
    by unfold enterSteps; split <;> simp [Step.isIdle], ?_⟩
  rw [steps_branch (by decide), hactions]
  congr 1
  rw [hchildren, hfront, stepsAll]
  dsimp only [List.headD_cons, List.tail_cons]
  rw [hback, stepsAll]
  simp [stepsAll, pieceSteps, leaveSteps, policy, Policy.holdsUnits]

/-- The steps over the body of a constructor are those over a block, with the assignments between
them. -/
theorem steps_of_fields (start : Nat) (names : List String)
    (hregular : (branch .block span marks children).Regular text) :
    ∃ before anchor after closing findings findings' front back back' enter enter',
      children = before ++ anchor :: (after ++ [closing]) ∧ IsAnchor before anchor after ∧
      closing.isToken .closeBrace ∧ EndsWith front anchor.lastLeaf ∧
      back'.map Step.unplaced = back.map Step.unplaced ∧
      (∀ step ∈ enter, step.isIdle) ∧ (∀ step ∈ enter', step.isIdle) ∧
      steps s .none (branch .block span marks children) =
        .tell findings :: (front ++ .start false ::
          (back ++ (enter ++ [.keep closing] ++ [.start false]))) ∧
      steps s (.fields (fieldPlan s.source s.unit start names (branch .block span marks children)))
          (branch .block span marks children) =
        .tell findings' :: (front ++ .start false :: (pieceSteps .statements (names.map
            (fieldAssignment s.source s.unit start (branch .block span marks children))) ++
          (back' ++ (enter' ++ [.keep (shutBrace s.source start closing)] ++
            [.start false])))) := by
  obtain ⟨hshape, -, hparts⟩ := hregular.branch
  obtain ⟨hopening, hclosing⟩ := hshape (by decide)
  obtain ⟨before, anchor, after, closing, hchildren, hposition, hanchor, hbrace⟩ :=
    exists_anchor hopening hclosing
  have hmem : anchor ∈ children := by simp [hchildren]
  have hends : EndsWith (steps s .none anchor) anchor.lastLeaf := by
    rcases hanchor with ⟨hcall, -⟩ | ⟨-, hbrace, -⟩
    · exact endsWith_superCall (hparts anchor hmem) hcall
    · exact endsWith_leaf (by simp) (isLeaf_of_isToken hbrace)
  generalize hplan : fieldPlan s.source s.unit start names (branch .block span marks children) =
    plan
  have hassignments : plan.assignments =
      names.map (fieldAssignment s.source s.unit start (branch .block span marks children)) := by
    rw [← hplan]
    rfl
  have hkept : steps s .none closing = [.keep closing] := by
    cases closing with
    | leaf token => rfl
    | _ => cases hbrace
  have hshut : steps s ((plan.closing.map Task.trivia).getD .none) closing =
      [.keep (shutBrace s.source start closing)] := by
    have hclosing : plan.closing = if hasLineBreak (closing.leadingTrivia s.source) then none
        else some ("\n" ++ lineIndent s.source start) := by
      have hlast : children.getLast? = some closing := by
        rw [hchildren, ← List.cons_append, ← List.append_assoc, List.getLast?_concat]
      rw [← hplan]
      simp only [fieldPlan, Node.children, hlast, Option.bind_some, hbrace, Bool.true_and]
      cases hasLineBreak (closing.leadingTrivia s.source) <;> rfl
    cases closing with
    | leaf token =>
      rw [steps, hclosing, shutBrace]
      · split <;> rfl
      · simp
    | _ => cases hbrace
  obtain ⟨acts, acts', hacts, hacts', hordinary, hfields⟩ :=
    actions_of_fields s span (hparts anchor hmem)
    hanchor hbrace (show before.length = plan.position by rw [hposition, ← hplan]; rfl) hchildren
  obtain ⟨lastKept, hfront⟩ := stepsAll_append s (policy .block) none hacts
  obtain ⟨enter, henter, hsteps⟩ := steps_block hchildren hacts' hfront hordinary
  obtain ⟨enter', henter', hsteps'⟩ := steps_block hchildren hacts' hfront hfields
  rw [hsteps, hsteps', hkept, hshut, hassignments]
  exact ⟨before, anchor, after, closing, _, _, _, _, _, enter, enter', hchildren, hanchor, hbrace,
    (hends.append_left _).append_left _, stepsAll_unplaced s (policy .block) _ _ acts' after,
    henter, henter', rfl, rfl⟩

/-- Pieces that nothing waits for stay as they are. -/
theorem leavesAlong_pieceSteps (policy : Policy) (pieces : List Inserted)
    (hpending : w.pending = pendingAfter source []) (hstart : w.atStart = false) :
    leavesAlong source w (pieceSteps policy pieces) = pieces.map inserted ∧
      (walkAlong source w (pieceSteps policy pieces)).pending = pendingAfter source [] := by
  induction pieces generalizing w with
  | nil => exact ⟨rfl, hpending⟩
  | cons piece pieces ih =>
    have hkept : (visitLeaf source w (inserted piece)).node = inserted piece := by
      have hempty : w.pending.isEmpty := by rw [hpending]; rfl
      rw [visitLeaf_eq, if_pos]
      simp [keptTrivia, hempty, needsSemicolon, hstart]
    have hpast : (walkAlong source (w.past source (inserted piece)) (leaveSteps policy)).pending =
        pendingAfter source [] ∧
        (walkAlong source (w.past source (inserted piece)) (leaveSteps policy)).atStart =
          false := by
      unfold leaveSteps
      split <;> exact ⟨rfl, by simp [Step.next, Walk.past, hstart]⟩
    obtain ⟨hleaves, hwalk⟩ := ih hpast.1 hpast.2
    rw [pieceSteps, leavesAlong_cons, walkAlong_cons, leavesAlong_append, walkAlong_append,
      Step.next, leavesAlong_of_isIdle (isIdle_leaveSteps policy), hleaves, Step.leaves, hkept]
    exact ⟨rfl, hwalk⟩

/-- The walk over the body of a constructor assigns the fields. -/
theorem assignsFields_leavesAlong {i j : Nat} (start : Nat) (names : List String)
    (hregular : (branch .block span marks children).Regular s.source)
    (htiles : (branch .block span marks children).Tiles s.source i j) {passed : List Passed}
    (hpending : w.pending = pendingAfter s.source passed) :
    AssignsFields s.source s.unit start names (branch .block span marks children)
      (runsFrom passed (steps s .none (branch .block span marks children)))
      (leavesAlong s.source w (steps s (.fields (fieldPlan s.source s.unit start names
        (branch .block span marks children))) (branch .block span marks children))) := by
  have hof := steps_isOf (branch .block span marks children)
    (.fields (fieldPlan s.source s.unit start names (branch .block span marks children))) htiles
  obtain ⟨before, anchor, after, closing, findings, findings', front, back, back', enter, enter',
    hchildren, hanchor, hbrace, hends, hback, henter, henter', hsteps, hsteps'⟩ :=
    steps_of_fields start names hregular
  rw [hsteps'] at hof ⊢
  simp only [List.forall_mem_cons, List.forall_mem_append] at hof
  obtain ⟨-, hfrontOf, -, -, hbackOf, ⟨-, hclosingOf, -⟩, -⟩ := hof
  have hruns : runsFrom passed (steps s .none (branch .block span marks children)) =
      runsFrom passed front ++ runsFrom [] back ++ [⟨passedAfter [] back, closing⟩] := by
    obtain ⟨hquiet, hsame⟩ := runsFrom_of_isIdle henter (passedAfter [] back)
    rw [hsteps, runsFrom, runsFrom_append, hends.passedAfter_eq, runsFrom, runsFrom_append,
      runsFrom_append, runsFrom_append, hquiet, hsame, List.nil_append, List.append_assoc]
    rfl
  -- The walk is told the findings, and then goes over the parts one after another.
  generalize hwalk : (Step.tell findings').next s.source w = w₁
  have hwaits₁ : w₁.pending = pendingAfter s.source passed := hwalk ▸ hpending
  have hwaits₂ := walkAlong_pending hwaits₁ front
  rw [hends.passedAfter_eq] at hwaits₂
  generalize hwalk₂ : (Step.start false).next s.source (walkAlong s.source w₁ front) = w₂
  have hassigned := leavesAlong_pieceSteps .statements
    (names.map (fieldAssignment s.source s.unit start (branch .block span marks children)))
    (hwalk₂ ▸ hwaits₂ : w₂.pending = pendingAfter s.source []) (hwalk₂ ▸ rfl)
  generalize hwalk₃ : walkAlong s.source w₂ _ = w₃ at hassigned
  obtain ⟨hpieces, hwaits₃⟩ := hassigned
  have hwaits₄ := walkAlong_pending (walkAlong_pending hwaits₃ back') enter'
  rw [(runsFrom_of_isIdle henter' _).2] at hwaits₄
  refine .intro hchildren hanchor hbrace hruns (hends.getLast?_runsFrom passed) ?_ ?_ ?_
    (leavesAlong_delivers hfrontOf hwaits₁) (leavesAlong_delivers hbackOf hwaits₃)
    (visitLeaf_delivers hwaits₄ (kind?_of_isLeafOf hclosingOf))
  · rw [runsFrom_unplaced, runsFrom_unplaced, hback]
  · rw [passedAfter_unplaced, passedAfter_unplaced, hback]
  · rw [leavesAlong_cons, leavesAlong_append, leavesAlong_cons, leavesAlong_append,
      leavesAlong_append, leavesAlong_append, leavesAlong_append, hwalk, hwalk₂, hpieces, hwalk₃,
      leavesAlong_of_isIdle henter']
    simp [Step.leaves]

end Bodies

/-- The body of a constructor with fields is visited with a plan for them. -/
theorem meets_constructorBody {task : Task} {constructor body : Node}
    (htask : task.Belongs constructor) (hkind : constructor.isKind .classConstructor)
    (hbody : body ∈ constructor.children) (hblock : body.isKind .block)
    (hfields : fieldNames s.source constructor.children ≠ []) :
    Meets s task constructor body (.keep (.fields (fieldPlan s.source s.unit constructor.span.start
      (fieldNames s.source constructor.children) body)) [] []) := by
  have hcommon : task.isCommon := by
    have hother : ∀ kind : NodeKind, kind ≠ .classConstructor →
        constructor.isKind kind = false := by
      intro kind hne
      rw [isKind, beq_iff_eq.1 hkind]
      simpa using hne.symm
    cases task with
    | functionBody name => simpa [hother] using htask.body name rfl
    | function lowering => simpa [hother] using htask.function lowering rfl
    | fields plan => simpa [hother] using htask.fields plan rfl
    | _ => rfl
  obtain ⟨span, marks, children, rfl⟩ := exists_of_isKind hkind
  refine exists_meets (by decide) hbody (not_isToken_of_isKind hblock _) fun index => ?_
  rw [verdict_of_isCommon (by simp) hcommon (by simp [not_isToken_of_isKind hblock])
    (isTypePart_of_isKind hblock)]
  obtain ⟨span', marks', statements, rfl⟩ := exists_of_isKind hblock
  simp only [Node.children] at hfields
  simp [childVerdict, policy, token?, childTask, isKind, kind?, hfields, Node.children, Node.span]

/-- The child with this number, and the task that it is kept with. -/
def keptAt? (s : Setting) (index : Nat) : Task × Node → Option (Task × Node)
  | (task, .branch kind span _ children) =>
    if policy kind == .typeSyntax then
      none
    else
      match children[index]?, (actions ⟨kind, span, task, children⟩
        (verdicts s ⟨kind, span, task, children⟩))[index]? with
      | some child, some (.keep task' _ _) => some (task', child)
      | _, _ => none
  | _ => none

theorem Visits.keptAt {root : Node} {index : Nat} {parent child : Task × Node}
    (h : Visits s .none root parent.1 parent.2) (hchild : keptAt? s index parent = some child) :
    Visits s .none root child.1 child.2 := by
  obtain ⟨task, node⟩ := parent
  cases node with
  | branch kind span marks children =>
    simp only [keptAt?] at hchild
    split at hchild
    · cases hchild
    rename_i hpolicy
    split at hchild
    · rename_i hget haction
      cases hchild
      exact h.child ⟨_, _, _, _, _, rfl, by simpa using hpolicy, hget, haction⟩
    · cases hchild
  | _ => cases hchild

end Erasure

open Erasure Erasure.Step

/-- The body of a constructor whose parameters declare fields has one assignment for each field, in
order, behind the first call of the base class or else behind the opening brace. All else in it is
what would be left of an ordinary block, except that the closing brace loses its trivia if that has
no line break. The assignments repeat what stands before the first statement on its line. -/
theorem SyntaxTree.erase_assigns_fields {variant : Variant} {file text : String} {tree : SyntaxTree}
    (hparse : SyntaxTree.parseAs variant file text = .ok tree) {options : Options} {task : Task}
    {constructor body : Node}
    (hvisits : Visits (.ofTree options text tree.root) .none tree.root task constructor)
    (hkind : constructor.isKind .classConstructor = true) (hbody : body ∈ constructor.children)
    (hblock : body.isKind .block = true) (hfields : fieldNames text constructor.children ≠ []) :
    (tree.erase options).tree.text = spell text (tree.erase options).tree.root.leaves ∧
    ∃ older leaves later passed, (tree.erase options).tree.root.leaves = older ++ leaves ++ later ∧
      AssignsFields text (indentUnit text) constructor.span.start
        (fieldNames text constructor.children)
        body (runsFrom passed (steps (.ofTree options text tree.root) .none body)) leaves := by
  refine ⟨(SyntaxTree.erase_delivers hparse options).1, ?_⟩
  have hregular := SyntaxTree.parseAs_regular hparse
  obtain ⟨rfl, htiles, -⟩ := SyntaxTree.parseAs_tiles hparse
  have hwithin :=
    hvisits.child (meets_constructorBody (hvisits.belongs hregular) hkind hbody hblock hfields)
  obtain ⟨front, back, hsteps⟩ := hwithin.isInfix
  obtain ⟨i, j, hbodyTiles⟩ := htiles.descendants body hwithin.mem_descendants
  have hbodyRegular := hregular.of_mem hwithin.mem_descendants
  obtain ⟨span, marks, children, rfl⟩ := exists_of_isKind hblock
  have hstart : ({} : Walk).pending = pendingAfter tree.source [] := rfl
  have hfollows := leaves_erase options tree
  rw [← hsteps, leavesAlong_append, leavesAlong_append] at hfollows
  exact ⟨_, _, _, passedAfter [] front, hfollows,
    assignsFields_leavesAlong (s := .ofTree options tree.source tree.root) _ _ hbodyRegular
      hbodyTiles (walkAlong_pending hstart front)⟩

/-- A constructor with fields that calls the one of its base class. -/
def derivedFields : String :=
  "class A extends B \x7b\n  constructor(private x, public y) \x7b\n    f();\n" ++
    "    super(x); // c\n    g();\n  \x7d\n\x7d"

/-- The class without its types. -/
def derivedAssignments : String :=
  "class A extends B \x7b\n  constructor(x, y) \x7b\n    f();\n    super(x);\n    this.x = x;\n" ++
    "    this.y = y; // c\n    g();\n  \x7d\n\x7d"

theorem SyntaxTree.erase_assigns_fields_derived :
    ∃ tree task constructor body, SyntaxTree.parseAs .standard "a.ts" derivedFields = .ok tree ∧
      Visits (.ofTree {} derivedFields tree.root) .none tree.root task constructor ∧
      constructor.isKind .classConstructor = true ∧ body ∈ constructor.children ∧
      fieldNames derivedFields constructor.children = ["x", "y"] ∧
      (tree.erase {}).tree.text = derivedAssignments ∧
      ∃ older leaves later passed, (tree.erase {}).tree.root.leaves = older ++ leaves ++ later ∧
        AssignsFields derivedFields (indentUnit derivedFields) constructor.span.start
          ["x", "y"] body
          (runsFrom passed (steps (.ofTree {} derivedFields tree.root) .none body)) leaves := by
  obtain ⟨tree, hparse, ⟨parent, hparent, kept, hkept, hkind, ⟨body, hbody, hblock⟩, hnames⟩,
    htext⟩ : ∃ tree, SyntaxTree.parseAs .standard "a.ts" derivedFields = .ok tree ∧
      (∃ parent ∈ keptAt? (.ofTree {} derivedFields tree.root) 0 (.none, tree.root),
        ∃ kept ∈ keptAt? (.ofTree {} derivedFields tree.root) 4 parent,
          kept.2.isKind .classConstructor ∧ (∃ body ∈ kept.2.children, body.isKind .block) ∧
            fieldNames derivedFields kept.2.children = ["x", "y"]) ∧
      (tree.erase {}).tree.text = derivedAssignments :=
    SyntaxTree.exists_checked (by decide +kernel)
  have hvisits := (Visits.here.keptAt hparent).keptAt hkept
  obtain ⟨-, hassigns⟩ := SyntaxTree.erase_assigns_fields hparse hvisits hkind hbody hblock
    (by simp [hnames])
  exact ⟨tree, kept.1, kept.2, body, hparse, hvisits, hkind, hbody, hnames, htext,
    hnames ▸ hassigns⟩

/-- Comments in front of the first statement and of the closing brace. -/
def commentedFields : String :=
  "class C \x7b\n  constructor(private x, private y) \x7b\n    /* a */ f(); /* b */ \x7d\n\x7d"

/-- The first comment stands before each of the assignments as well, and the last one is lost. -/
theorem SyntaxTree.erase_repeats_and_loses_comments :
    ∃ tree, SyntaxTree.parseAs .standard "a.ts" commentedFields = .ok tree ∧
      (tree.erase {}).tree.text =
        "class C \x7b\n  constructor(x, y) \x7b\n    /* a */ this.x = x;\n" ++
        "    /* a */ this.y = y;\n    /* a */ f();\n  \x7d\n\x7d" :=
  SyntaxTree.exists_checked (by decide +kernel)

end Untype
