-- What the erasure leaves of types: nothing but the type syntax that it
-- tells about. Outside of that, an expression with a type has become its
-- operand.
import Untype.Proofs.Erasure.Parts
import Untype.Proofs.Shapes.Files

namespace Untype

open Untype.Node

/-! ## Trees without their type syntax -/

namespace Node

variable {part : Node} {nodes others : List Node}

/-- The node is type syntax. -/
def isTypeSyntax (node : Node) : Bool :=
  node.label.satisfies fun kind => Erasure.policy kind == .typeSyntax

/-- What an expression with a type stands for. -/
def operand? : Node → Option Node
  | branch .typeAssertionExpression _ _ children => children.getLast?
  | branch _ _ _ children => children.head?
  | _ => none

end Node

namespace Erasure

variable {s : Setting} {scope : Scope}
variable {task : Task} {node child statement : Node} {action : Action} {kind : NodeKind}
  {text : String} {children : List Node}

/-! ## Tasks of expressions with types -/

/-- The task leaves an expression with a type to the rule for its kind. -/
def Task.isPlain : Task → Bool
  | .assigned | .constants _ | .function _ | .fields _ => false
  | _ => true

/-- Expressions have plain tasks. What becomes a function is a namespace, and the body
of the function is the body of the namespace. Fields are assigned in a block. -/
structure Task.Belongs (task : Task) (node : Node) : Prop where
  plain : node.isExpression → task.isPlain
  body : ∀ name, task = .functionBody name → node.isKind .moduleBlock
  function : ∀ lowering, task = .function lowering → node.isKind .moduleDeclaration
  fields : ∀ plan, task = .fields plan → node.isKind .block

/-- The action gives a kept child a task that belongs to it. -/
def Action.Belongs (child : Node) (action : Action) : Prop :=
  ∀ task before after, action = .keep task before after → task.Belongs child

/-- The task is for no kind of node in particular. -/
def Task.isCommon : Task → Bool
  | .functionBody _ | .function _ | .fields _ => false
  | _ => true

/-- The task can be given to any node. -/
def Task.isFree (task : Task) : Bool := task.isPlain && task.isCommon

theorem Task.belongs_of_isCommon (h : task.isCommon)
    (hplain : node.isExpression → task.isPlain) : task.Belongs node := by
  refine ⟨hplain, ?_, ?_, ?_⟩
  all_goals
    rintro _ rfl
    cases h

theorem Task.belongs_of_isFree (h : task.isFree) (node : Node) : task.Belongs node :=
  belongs_of_isCommon (Bool.and_eq_true_iff.1 h).2 fun _ => (Bool.and_eq_true_iff.1 h).1

theorem Task.belongs_of_not_isExpression (hnode : node.isExpression = false)
    (h : task.isCommon) : task.Belongs node :=
  belongs_of_isCommon h fun hcast => by rw [hnode] at hcast; cases hcast

def Action.isFree : Action → Bool
  | .keep task _ _ => task.isFree
  | _ => true

theorem Action.belongs_of_isFree (h : action.isFree) (child : Node) :
    action.Belongs child := by
  rintro task before after rfl
  exact Task.belongs_of_isFree h child

theorem Action.Belongs.followedBy (h : action.Belongs child) (pieces : List Inserted) :
    (action.followedBy pieces).Belongs child := by
  intro task before after haction
  cases action with
  | keep task' before' after' =>
    cases haction
    exact h task before after' rfl
  | replace piece | remove removal => cases haction

theorem not_isExpression_of_isKind (h : node.isKind kind) (hkind : kind.isOperand = false) :
    node.isExpression = false := by
  cases node with
  | branch kind' span marks children =>
    obtain rfl : kind' = kind := by simpa [isKind, kind?] using h
    exact hkind
  | _ => rfl

theorem plain_of_isStatement (h : node.isStatement) :
    node.isExpression = false ∧ node.isTypePart = false := by
  cases node with
  | branch kind span marks children =>
    have hkind : kind.isStatement := (Bool.and_eq_true_iff.1 h).1
    cases kind <;> first | exact ⟨rfl, rfl⟩ | cases hkind
  | _ => exact ⟨rfl, rfl⟩

theorem childTask_belongs (index : Nat) (child : Node) :
    (childTask s scope index child).Belongs child := by
  unfold childTask
  dsimp only
  split
  · split
    · rename_i hblock
      have hblock := (Bool.and_eq_true_iff.1 hblock).1
      refine ⟨fun hcast => ?_, nofun, nofun, fun _ _ => hblock⟩
      rw [not_isExpression_of_isKind hblock rfl] at hcast
      cases hcast
    · exact Task.belongs_of_isFree rfl child
  all_goals
    repeat' split
    all_goals first
      | exact Task.belongs_of_isFree rfl child
      | skip
  rename_i hvariable
  rcases (by simpa using hvariable) with hkind | hkind <;>
    exact Task.belongs_of_not_isExpression (not_isExpression_of_isKind hkind rfl) rfl

theorem exportOwner?_task {owner : String} (h : exportOwner? scope statement = some owner) :
    ∃ name, scope.task = .functionBody name := by
  unfold exportOwner? at h
  split at h
  · exact ⟨_, ‹_›⟩
  · cases h

theorem StatementFate.belongs (hfate : StatementFate s scope statement action)
    (h : (∃ name, scope.task = .functionBody name) → statement.isExpression = false) :
    action.Belongs statement := by
  cases hfate with
  | assigned howner | constants howner =>
    rintro _ _ _ ⟨rfl, rfl, rfl⟩
    exact Task.belongs_of_not_isExpression (h (exportOwner?_task howner)) rfl
  | function hmodule =>
    rintro _ _ _ ⟨rfl, rfl, rfl⟩
    refine ⟨fun hcast => ?_, nofun, fun _ _ => hmodule, nofun⟩
    rw [not_isExpression_of_isKind hmodule rfl] at hcast
    cases hcast
  | _ => exact Action.belongs_of_isFree rfl statement

theorem Fate.belongs {index : Nat} (hfate : Fate s scope index child action)
    (h : (∃ name, scope.task = .functionBody name) → child.isExpression = false) :
    action.Belongs child := by
  induction hfate with
  | keep =>
    rintro _ _ _ ⟨rfl, rfl, rfl⟩
    exact childTask_belongs index child
  | statement hfate => exact hfate.belongs h
  | body name hblock =>
    rintro _ _ _ ⟨rfl, rfl, rfl⟩
    exact ⟨fun _ => rfl, fun _ _ => hblock, nofun, nofun⟩
  | fields _ _ ih => exact ih.followedBy _
  | _ => exact Action.belongs_of_isFree rfl child

theorem actions_belong (s : Setting) (scope : Scope) (marks : Marks)
    (hregular : (branch scope.kind scope.span marks scope.children).Regular text)
    (htask : scope.task.Belongs (branch scope.kind scope.span marks scope.children)) :
    List.Forall₂ Action.Belongs scope.children (actionsOf s scope) := by
  refine actions_forall₂ (fun index child hchild => (verdict_fate s scope index child).belongs ?_)
    fun child _ => Action.belongs_of_isFree rfl child
  rintro ⟨name, hname⟩
  have hkind : scope.kind = .moduleBlock := by simpa [isKind, kind?] using htask.body name hname
  have hshape := hregular.branch.1
  rw [hkind] at hshape
  exact (plain_of_isStatement ((hshape (by decide)).2.2 child (List.mem_of_getElem? hchild)).1).1

/-! ## What stays of an expression with a type -/

def Action.isRemove : Action → Bool
  | .remove _ => true
  | _ => false

/-- The pieces around a kept operand: none, or parentheses. -/
def isWrapping (kind : NodeKind) (before after : List Inserted) : Prop :=
  before = [] ∧ after = [] ∨
    kind = .typeAssertionExpression ∧ before.map (·.text) = ["("] ∧ after.map (·.text) = [")"]

theorem isTypePart_iff : node.isTypePart ↔
    node.isKind .annotatedType ∨ node.isKind .typeParameters ∨
      node.isKind .typeArguments := by
  cases node with
  | branch kind span marks children =>
    cases kind <;> simp [isTypePart, label, Label.satisfies, NodeKind.isTypePart, isKind, kind?]
  | leaf token | inserted piece => simp [isTypePart, label, Label.satisfies, isKind, kind?]

/-- In an expression with a type whose task is plain, a list of types goes, and any other child
has the verdict of the kind of the expression. -/
theorem verdict_of_isCast (hkind : scope.kind.isCast) (htask : scope.task.isPlain)
    (index : Nat) (child : Node) :
    if child.isTypePart then (verdict s scope index child).action.isRemove
    else verdict s scope index child = childVerdict s scope index child := by
  have howner : constantOwner? s scope index = none :=
    constantOwner?_eq_none index (.inl fun h => by rw [h] at hkind; cases hkind)
  have hexport : scope.task.dropsExport = false := by
    cases h : scope.task <;> simp_all [Task.isPlain, Task.dropsExport]
  unfold verdict
  rw [howner, hexport]
  simp only [Bool.and_false, Bool.false_eq_true, if_false, isTypePart_iff]
  by_cases hannotated : child.isKind .annotatedType
  · simp [hannotated, Action.isRemove]
  by_cases hparameters : child.isKind .typeParameters
  · simp [hannotated, hparameters, Action.isRemove]
  by_cases harguments : child.isKind .typeArguments
  · simp [hannotated, hparameters, harguments, Action.isRemove]
  simp only [hannotated, hparameters, harguments, or_self, Bool.false_eq_true, if_false]
  split
  · rename_i hlowers
    simp [hlowers, Task.isPlain] at htask
  · rename_i hfields
    simp [hfields, Task.isPlain] at htask
  · rfl

theorem not_isTypePart_of_isOperand (h : node.isOperand) : node.isTypePart = false := by
  cases node with
  | branch kind span marks children =>
    cases kind <;> first | rfl | cases h
  | _ => rfl

theorem exists_first_operand (hstart : startsWithOperand kind)
    (hshape : kind.HasShape text children) :
    ∃ operand rest, children = operand :: rest ∧ operand.isOperand := by
  cases kind with
  | instantiationExpression =>
    obtain ⟨operand, arguments, rfl, hoperand, -⟩ := hshape
    exact ⟨operand, [arguments], rfl, hoperand⟩
  | binaryExpression =>
    obtain ⟨left, sign, right, -, rfl, hleft, -⟩ := hshape
    exact ⟨left, [sign, right], rfl, hleft⟩
  | callExpression =>
    obtain ⟨operand, rest, closing, rfl, hoperand, -⟩ := hshape
    exact ⟨operand, rest ++ [closing], rfl, hoperand⟩
  | asExpression | satisfiesExpression =>
    obtain ⟨operand, rest, rfl, hoperand, -⟩ := hshape
    exact ⟨operand, rest, rfl, hoperand⟩
  | _ => first
    | exact hshape
    | cases hstart

/-- Where the operand of an expression with a type stands. -/
theorem exists_operand (hkind : kind.isCast) (hshape : kind.HasShape text children)
    (span : Span) (marks : Marks) :
    ∃ position operand, children[position]? = some operand ∧
      (branch kind span marks children).operand? = some operand ∧ operand.isTypePart = false ∧
      (policy kind = .cast ∧ position = 0 ∨
        policy kind = .assertion ∧ position + 1 = children.length ∧
          kind = .typeAssertionExpression ∨
        policy kind = .plain ∧ position = 0 ∧ ∀ part ∈ children.tail, part.isTypePart) := by
  cases kind <;> first | (cases hkind; done) | skip
  · obtain ⟨opening, type, closing, operand, rfl, -, -, -, hoperand⟩ := hshape
    exact ⟨3, operand, rfl, by simp [operand?], not_isTypePart_of_isOperand hoperand,
      .inr (.inl ⟨rfl, rfl, rfl⟩)⟩
  iterate 3
    obtain ⟨operand, rest, rfl, hoperand⟩ := exists_first_operand rfl hshape
    exact ⟨0, operand, rfl, by simp [operand?], not_isTypePart_of_isOperand hoperand,
      .inl ⟨rfl, rfl⟩⟩
  · obtain ⟨operand, arguments, rfl, hoperand, hlist⟩ := hshape
    refine ⟨0, operand, rfl, by simp [operand?], not_isTypePart_of_isOperand hoperand,
      .inr (.inr ⟨rfl, rfl, ?_⟩)⟩
    simpa using isTypePart_iff.2 (.inr (.inr hlist))

theorem operandAction_wraps (source : String) (task : Task) (operand : Node) :
    ∃ task' before after, operandAction source task operand = .keep task' before after ∧
      isWrapping .typeAssertionExpression before after := by
  unfold operandAction
  split
  · split
    · exact ⟨_, _, _, rfl, .inr ⟨rfl, rfl, rfl⟩⟩
    · exact ⟨_, _, _, rfl, .inl ⟨rfl, rfl⟩⟩
  · exact ⟨_, _, _, rfl, .inl ⟨rfl, rfl⟩⟩

/-- Only the child at `position` is kept, between these pieces. -/
structure OnlyKeeps (position : Nat) (task : Task) (before after : List Inserted)
    (actions : List Action) : Prop where
  kept : actions[position]? = some (.keep task before after)
  gone : ∀ index action, actions[index]? = some action → index ≠ position → action.isRemove

theorem actions_getElem?_of_not_holdsList (h : (policy scope.kind).holdsList = false)
    (index : Nat) :
    (actionsOf s scope)[index]? =
      scope.children[index]?.map fun child => (verdict s scope index child).action := by
  simp [actions, verdicts, h, Function.comp_def]

/-- All pieces of an expression with a type go but for its operand. -/
theorem actions_of_isCast (s : Setting) (scope : Scope) (marks : Marks)
    (hkind : scope.kind.isCast) (htask : scope.task.isPlain)
    (hshape : scope.kind.HasShape text scope.children) :
    ∃ position operand task before after, scope.children[position]? = some operand ∧
      (branch scope.kind scope.span marks scope.children).operand? = some operand ∧
      isWrapping scope.kind before after ∧
      OnlyKeeps position task before after (actionsOf s scope) := by
  obtain ⟨position, operand, hoperand, hoperand?, hpart, hpolicy⟩ :=
    exists_operand hkind hshape scope.span marks
  have hlist : (policy scope.kind).holdsList = false := by
    obtain ⟨h, -⟩ | ⟨h, -⟩ | ⟨h, -⟩ := hpolicy <;> rw [h] <;> rfl
  have hkept : ∃ task before after, isWrapping scope.kind before after ∧
      (verdict s scope position operand).action = .keep task before after := by
    have hverdict := verdict_of_isCast (s := s) hkind htask position operand
    rw [if_neg (by simp [hpart])] at hverdict
    rw [hverdict]
    unfold childVerdict
    obtain ⟨hcast, hfirst⟩ | ⟨hcast, hlast, hassertion⟩ | ⟨hcast, -⟩ := hpolicy <;> rw [hcast]
    · exact ⟨_, [], [], .inl ⟨rfl, rfl⟩, by simp [hfirst]; rfl⟩
    · obtain ⟨task, before, after, hwrap⟩ := operandAction_wraps s.source scope.task operand
      exact ⟨task, before, after, hassertion ▸ hwrap.2, by simp [hlast, hwrap.1]⟩
    · exact ⟨_, [], [], .inl ⟨rfl, rfl⟩, rfl⟩
  have hgone : ∀ index child, index ≠ position → scope.children[index]? = some child →
      (verdict s scope index child).action.isRemove := by
    intro index child hindex hchild
    have hverdict := verdict_of_isCast (s := s) hkind htask index child
    split at hverdict
    · exact hverdict
    rename_i htype
    rw [hverdict]
    unfold childVerdict
    obtain ⟨hcast, rfl⟩ | ⟨hcast, hlast, -⟩ | ⟨-, rfl, hrest⟩ := hpolicy
    · rw [hcast]
      simp [hindex, Action.isRemove]
    · rw [hcast]
      simp [← hlast, hindex, Action.isRemove]
    · obtain ⟨index, rfl⟩ := Nat.exists_eq_succ_of_ne_zero hindex
      exact absurd (hrest child (List.mem_of_getElem? (by simpa using hchild))) htype
  obtain ⟨task, before, after, hwrap, hkept⟩ := hkept
  refine ⟨position, operand, task, before, after, hoperand, hoperand?, hwrap, ?_, ?_⟩
  · rw [actions_getElem?_of_not_holdsList hlist, hoperand, Option.map_some, hkept]
  · intro index action haction hindex
    rw [actions_getElem?_of_not_holdsList hlist] at haction
    obtain ⟨child, hchild, rfl⟩ := Option.map_eq_some_iff.1 haction
    exact hgone index child hindex hchild

/-- Where only one child is kept, it is left with the pieces around it. -/
theorem PartsOf.of_onlyKeeps {before after : List Inserted} {operand : Node} {position : Nat}
    {acts : List Action} {parts : List (List Node)} (h : PartsOf s children acts parts)
    (hoperand : children[position]? = some operand)
    (hkeeps : OnlyKeeps position task before after acts) :
    Becomes s operand (.keep task before after) parts.flatten := by
  obtain ⟨part, hpart, hbecomes⟩ := h.exists_part hoperand hkeeps.kept
  obtain ⟨front, back, hflatten, hfront, hback⟩ := h.around hpart
  have hgone : ∀ {new : Node} {place : Nat}, place ≠ position →
      ¬ComesFrom s children acts place new := by
    rintro new place hplace ⟨child, action, part, -, haction, hbecomes, hnew⟩
    have hremove := hkeeps.gone place action haction hplace
    cases hbecomes with
    | removed => cases hnew
    | _ => cases hremove
  have hnil : front = [] := List.eq_nil_iff_forall_not_mem.2 fun new hnew => by
    obtain ⟨place, hplace, hfrom⟩ := hfront new hnew
    exact hgone (Nat.ne_of_lt hplace) hfrom
  have hnil' : back = [] := List.eq_nil_iff_forall_not_mem.2 fun new hnew => by
    obtain ⟨place, hplace, hfrom⟩ := hback new hnew
    exact hgone (Nat.ne_of_gt hplace) hfrom
  rwa [hflatten, hnil, hnil', List.nil_append, List.append_nil]

/-! ## What is told -/

section Findings

variable {source : String} {w : Walk} {policy : Policy}

theorem findings_subset_walkAlong (steps : List Step) :
    w.findings ⊆ (Step.walkAlong source w steps).findings := by
  induction steps generalizing w with
  | nil => exact List.Subset.refl _
  | cons step steps ih =>
    have hstep : w.findings ⊆ (step.next source w).findings := by
      cases step with
      | stay node =>
        simp only [Step.next, visitTypeSyntax, visitLeaf_walk, Walk.past]
        exact List.subset_append_left _ _
      | tell findings => exact List.subset_append_left _ _
      | start atStart | keep node | pass child removal first => exact List.Subset.refl _
    exact List.Subset.trans hstep ih

theorem findings_subset_visitAll {lastKept : Option Label} {actions : List Action} :
    w.findings ⊆ (visitAll s policy lastKept w actions children).walk.findings := by
  rw [(visitAll_follows s children policy lastKept w actions).2]
  exact findings_subset_walkAlong _

end Findings

/-! ## What is left -/

/-- The second node is what is left of the first one, an expression with a type: its operand,
in parentheses that were put around it or not. -/
structure Reduces (old new : Node) : Prop where
  label : new.label = old.label
  span : new.span = old.span
  operand : ∃ operand left, old.operand? = some operand ∧ left.label = operand.label ∧
    left.span = operand.span ∧
    (new.children = [left] ∨
      new.isKind .typeAssertionExpression ∧ ∃ opening closing : Inserted,
        new.children = [inserted opening, left, inserted closing] ∧
          opening.text = "(" ∧ closing.text = ")")

/-- What is left of an expression with a type is its operand. -/
theorem visit_reduces (s : Setting) (w : Walk) (place : Span) (marks : Marks)
    (hkind : kind.isCast) (htask : task.isPlain)
    (hshape : kind.HasShape text children) :
    Reduces (branch kind place marks children)
      (visit s task w (branch kind place marks children)).node := by
  obtain ⟨hlabel, hspan⟩ := label_visit s task w (branch kind place marks children)
  refine ⟨hlabel, hspan, ?_⟩
  obtain ⟨position, operand, task', before, after, hoperand, hoperand?, hwrap, hkeeps⟩ :=
    actions_of_isCast s ⟨kind, place, task, children⟩ marks hkind htask hshape
  have hpolicy : policy kind ≠ .typeSyntax := by
    cases kind <;> first | (cases hkind; done) | decide
  obtain ⟨parts, hnodes, hparts⟩ := visit_partsOf hpolicy s task w place marks children
  have hbecomes := hparts.of_onlyKeeps hoperand hkeeps
  rw [← hnodes] at hbecomes
  generalize hnew : (visit s task w (branch kind place marks children)).node.children =
    new at hbecomes ⊢
  cases hbecomes with
  | @kept _ w' _ _ front back hfront hback =>
    obtain ⟨hlabel', hspan'⟩ := label_visit s task' w' operand
    refine ⟨operand, (visit s task' w' operand).node, hoperand?, hlabel', hspan', ?_⟩
    rcases hwrap with ⟨rfl, rfl⟩ | ⟨rfl, hbefore, hafter⟩
    · cases hfront
      cases hback
      exact .inl rfl
    · obtain ⟨opening, rfl, hopening⟩ := List.map_eq_singleton_iff.1 hbefore
      obtain ⟨closing, rfl, hclosing⟩ := List.map_eq_singleton_iff.1 hafter
      obtain ⟨_, _, ⟨left, rfl, hleft⟩, hnil, rfl⟩ := List.forall₂_cons_left_iff.1 hfront
      obtain ⟨_, _, ⟨right, rfl, hright⟩, hnil', rfl⟩ := List.forall₂_cons_left_iff.1 hback
      cases hnil
      cases hnil'
      exact .inr ⟨by rw [isKind, kind?_of_label_eq hlabel]; rfl, left, right, rfl,
        hleft.trans hopening, hright.trans hclosing⟩

end Erasure

end Untype
