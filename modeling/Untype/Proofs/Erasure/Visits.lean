-- What the walk of the erasure comes to: the nodes that it visits, each with
-- the task it has there, and the pieces that it passes over.
import Untype.Proofs.Erasure.Steps

namespace Untype.Erasure

open Untype.Node Step

variable {removal : Removal}

/-- This happens to a child of a node that is visited with the task. -/
def Meets (s : Setting) (task : Task) (node child : Node) (action : Action) : Prop :=
  ∃ kind span marks children, ∃ index : Nat, node = branch kind span marks children ∧
    policy kind ≠ .typeSyntax ∧ children[index]? = some child ∧
    (actions ⟨kind, span, task, children⟩ (verdicts s ⟨kind, span, task, children⟩))[index]? =
      some action

/-- A walk over a node with a task visits these nodes with these tasks. -/
inductive Visits (s : Setting) (task : Task) (node : Node) : Task → Node → Prop where
  | here : Visits s task node task node
  | child {task' task'' : Task} {parent child : Node} {before after : List Inserted} :
    Visits s task node task' parent → Meets s task' parent child (.keep task'' before after) →
    Visits s task node task'' child

/-- A walk over a node with a task passes over this piece. -/
def Removes (s : Setting) (task : Task) (node piece : Node) (removal : Removal) : Prop :=
  ∃ task' parent, Visits s task node task' parent ∧ Meets s task' parent piece (.remove removal)

/-! ## The steps of a visit -/

section Steps

variable {s : Setting} {policy : Policy} {lastKept : Option Label} {child : Node}
variable {children : List Node} {acts : List Action}

theorem stepsAll_keep {task : Task} {before after : List Inserted} {index : Nat}
    (hchild : children[index]? = some child)
    (haction : acts[index]? = some (.keep task before after)) :
    steps s task child <:+: stepsAll s policy lastKept acts children := by
  obtain ⟨front, lastKept', hsplit⟩ := stepsAll_split s policy lastKept hchild haction
  rw [hsplit, stepsAll]
  refine List.infix_append_of_infix_right ?_
  exact ⟨enterSteps policy child lastKept' ++ pieceSteps policy before, leaveSteps policy ++
    (pieceSteps policy after ++ _), by simp only [List.append_assoc]; rfl⟩

theorem stepsAll_remove {index : Nat} (hchild : children[index]? = some child)
    (haction : acts[index]? = some (.remove removal)) :
    ∃ first, .pass child removal first ∈ stepsAll s policy lastKept acts children := by
  obtain ⟨front, lastKept', hsplit⟩ := stepsAll_split s policy lastKept hchild haction
  rw [hsplit, stepsAll]
  exact ⟨_, List.mem_append_right _ List.mem_cons_self⟩

end Steps

variable {s : Setting} {task task' : Task} {node node' : Node}

theorem Meets.verdict {child : Node} {action : Action} (h : Meets s task node child action) :
    ∃ kind span marks children, ∃ index : Nat, node = branch kind span marks children ∧
      (action = (verdict s ⟨kind, span, task, children⟩ index child).action ∨
        child.isToken .comma ∧ action = .remove .unit) := by
  obtain ⟨kind, span, marks, children, index, rfl, -, hchild, haction⟩ := h
  refine ⟨kind, span, marks, children, index, rfl, ?_⟩
  have hactions : ∃ action', (actionsOf s ⟨kind, span, task, children⟩)[index]? = some action' ∧
      _ := actions_getElem? hchild
  obtain ⟨action', hsome, hverdict⟩ := hactions
  rw [haction] at hsome
  obtain rfl := Option.some.inj hsome
  exact hverdict

theorem Meets.fate {child : Node} {action : Action} (h : Meets s task node child action) :
    ∃ kind span marks children, ∃ index : Nat, node = branch kind span marks children ∧
      Fate s ⟨kind, span, task, children⟩ index child action := by
  obtain ⟨kind, span, marks, children, index, rfl, rfl | ⟨-, rfl⟩⟩ := h.verdict
  · exact ⟨kind, span, marks, children, index, rfl, verdict_fate _ _ _ _⟩
  · exact ⟨kind, span, marks, children, index, rfl, .remove _⟩

theorem Meets.keep {before after : List Inserted}
    (h : Meets s task node node' (.keep task' before after)) :
    steps s task' node' <:+: steps s task node := by
  obtain ⟨kind, span, marks, children, index, rfl, hpolicy, hchild, haction⟩ := h
  rw [steps_branch hpolicy]
  exact (stepsAll_keep hchild haction).trans (List.suffix_cons _ _).isInfix

theorem Meets.remove (h : Meets s task node node' (.remove removal)) :
    ∃ first, .pass node' removal first ∈ steps s task node := by
  obtain ⟨kind, span, marks, children, index, rfl, hpolicy, hchild, haction⟩ := h
  rw [steps_branch hpolicy]
  obtain ⟨first, hmem⟩ := stepsAll_remove hchild haction
  exact ⟨first, List.mem_cons_of_mem _ hmem⟩

theorem Visits.isInfix (h : Visits s task node task' node') :
    steps s task' node' <:+: steps s task node := by
  induction h with
  | here => exact List.infix_rfl
  | child _ hmeets ih => exact hmeets.keep.trans ih

theorem Removes.mem_steps {piece : Node} (h : Removes s task node piece removal) :
    ∃ first, .pass piece removal first ∈ steps s task node := by
  obtain ⟨task', parent, hvisits, hmeets⟩ := h
  obtain ⟨first, hmem⟩ := hmeets.remove
  exact ⟨first, hvisits.isInfix.subset hmem⟩

/-! ## What holds of all steps -/

/-- What the steps over a child do, when this happens to it. -/
def Action.Allows (Q : Task → Node → Prop) (P : Step → Prop) (child : Node) : Action → Prop
  | .keep task before after => Q task child ∧ ∀ piece ∈ before ++ after, P (.keep (.inserted piece))
  | .replace piece => P (.keep (.inserted piece))
  | .remove removal => ∀ first, P (.pass child removal first)

/-- What is true of a node that is visited is true of those visited below it, and makes something
true of their steps. -/
structure Carries (s : Setting) (Q : Task → Node → Prop) (P : Step → Prop) : Prop where
  tell : ∀ findings, P (.tell findings)
  start : ∀ atStart, P (.start atStart)
  leaf : ∀ {task node}, Q task node → node.kind? = none → P (.keep (task.dress node))
  stay : ∀ {task kind span marks children}, Q task (branch kind span marks children) →
    policy kind = .typeSyntax → P (.stay (branch kind span marks children))
  meets : ∀ {task node child action}, Q task node → Meets s task node child action →
    action.Allows Q P child

namespace Carries

variable {s : Setting} {Q : Task → Node → Prop} {P : Step → Prop}

theorem pieceSteps (h : Carries s Q P) (policy : Policy) {pieces : List Inserted}
    (hpieces : ∀ piece ∈ pieces, P (.keep (.inserted piece))) :
    ∀ step ∈ pieceSteps policy pieces, P step := by
  induction pieces with
  | nil => simp [Erasure.pieceSteps]
  | cons piece pieces ih =>
    rw [List.forall_mem_cons] at hpieces
    rw [Erasure.pieceSteps, List.forall_mem_cons, List.forall_mem_append]
    exact ⟨hpieces.1, by unfold leaveSteps; split <;> simp [h.start], ih hpieces.2⟩

mutual

theorem steps (h : Carries s Q P) : ∀ (node : Node) (task : Task), Q task node →
    ∀ step ∈ steps s task node, P step
  | .leaf token, task, hnode | .inserted piece, task, hnode => by
    simpa [Erasure.steps] using h.leaf hnode rfl
  | branch kind span marks children, task, hnode => by
    by_cases hpolicy : policy kind = .typeSyntax
    · simpa [Erasure.steps, hpolicy] using h.stay hnode hpolicy
    · rw [steps_branch hpolicy]
      have hlength : (actionsOf s ⟨kind, span, task, children⟩).length = children.length :=
        actions_length
      refine List.forall_mem_cons.2 ⟨h.tell _, stepsAll h children _ none ?_⟩
      refine List.forall₂_of_length_eq_of_get hlength.symm fun index hchild haction => ?_
      exact h.meets hnode ⟨kind, span, marks, children, index, rfl, hpolicy,
        List.getElem?_eq_getElem hchild, List.getElem?_eq_getElem haction⟩

theorem stepsAll (h : Carries s Q P) : ∀ (children : List Node) (policy : Policy)
    (lastKept : Option Label) {acts : List Action},
    List.Forall₂ (Action.Allows Q P) children acts →
    ∀ step ∈ stepsAll s policy lastKept acts children, P step
  | [], policy, lastKept, acts, hacts => by simp [Erasure.stepsAll]
  | child :: rest, policy, lastKept, acts, hacts => by
    obtain ⟨action, others, haction, hothers, rfl⟩ := List.forall₂_cons_left_iff.1 hacts
    have hrest := fun lastKept => stepsAll h rest policy lastKept hothers
    have henter : ∀ step ∈ enterSteps policy child lastKept, P step := by
      unfold enterSteps
      split <;> simp [h.start]
    rw [Erasure.stepsAll]
    cases action with
    | remove removal => exact List.forall_mem_cons.2 ⟨haction _, hrest lastKept⟩
    | replace piece =>
      simp only [List.headD_cons, List.tail_cons, List.forall_mem_append]
      exact ⟨⟨henter, h.pieceSteps policy (List.forall_mem_singleton.2 haction)⟩, hrest _⟩
    | keep task before after =>
      obtain ⟨hchild, hpieces⟩ := haction
      rw [List.forall_mem_append] at hpieces
      simp only [List.headD_cons, List.tail_cons, List.forall_mem_append]
      exact ⟨⟨⟨⟨⟨henter, h.pieceSteps policy hpieces.1⟩, steps h child task hchild⟩,
        by unfold leaveSteps; split <;> simp [h.start]⟩, h.pieceSteps policy hpieces.2⟩, hrest _⟩

end

end Carries

end Untype.Erasure
