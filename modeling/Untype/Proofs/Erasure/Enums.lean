-- Enums and namespaces in plainer words: nothing else is put into them, and
-- what an initializer uses is used by its enum.
import Untype.Proofs.Erasure.Members
import Untype.Proofs.Erasure.Uses
import Untype.Proofs.Erasure.Visits

namespace Untype.Erasure

open Untype.Node

variable {s : Setting} {source : String} {node child : Node}
variable {task : Task}

/-! ## Initializers -/

theorem uses_initializer {enum member initializer : Node} (henum : enum.isKind .enumDeclaration)
    (hmember : member ∈ enum.children) (hkind : member.isKind .enumMember)
    (hinitializer : initializer ∈ member.children) :
    uses source false initializer ⊆ uses source false enum := by
  intro use huse
  obtain ⟨span, marks, members, rfl⟩ := exists_of_isKind henum
  obtain ⟨span', marks', children, rfl⟩ := exists_of_isKind hkind
  have hself : use ∈ uses source false (branch .enumMember span' marks' children) :=
    uses_of_mem (by decide) (by decide) rfl hinitializer huse
  exact uses_of_mem (by decide) (by decide) rfl hmember hself

/-- Code that can be moved has no type context but a clause with `implements`. -/
theorem isImplements_of_isMovable {keys : List String} {expression holder : Node}
    (h : isMovable source keys expression) (hholder : holder ∈ expression.descendants)
    (hcontext : holder.isTypeContext) : holder.isImplements := by
  have htype := List.all_eq_true.1 h holder hholder
  cases holder with
  | leaf token | inserted piece => cases hcontext
  | branch kind span marks children =>
    have hcontext : Erasure.isTypeContext kind children := hcontext
    have honly : kind.isTypeOnly = false := by
      simpa [label, Label.satisfies] using (Bool.and_eq_true_iff.1 htype).2
    cases kind with
    | heritageClause => exact hcontext
    | _ => first
      | exact absurd hcontext Bool.false_ne_true
      | exact absurd honly.symm Bool.false_ne_true

/-! ## What is put into plainer words -/

/-- The action puts the child into plainer words. -/
def Action.lowers : Action → Bool
  | .keep task _ _ => task.lowers
  | .replace piece => piece.lowered
  | .remove _ => false

theorem followedBy_nil (action : Action) : action.followedBy [] = action := by
  cases action <;> simp [Action.followedBy]

theorem lowers_childTask (s : Setting) (scope : Scope) (index : Nat) (child : Node) :
    (childTask s scope index child).lowers = false := by
  unfold childTask
  dsimp only
  repeat' split
  all_goals rfl

theorem Fate.statement_of_lowers {scope : Scope} {index : Nat} {action : Action}
    (h : Fate s scope index child action) (hlowers : action.lowers) :
    ∃ action' pieces, StatementFate s scope child action' ∧ action = action'.followedBy pieces := by
  induction h with
  | keep => cases (lowers_childTask s scope index child).symm.trans hlowers
  | statement h => exact ⟨_, [], h, (followedBy_nil _).symm⟩
  | @fields plan action _ _ ih =>
    obtain ⟨action', pieces, h, rfl⟩ := ih (by cases action <;> exact hlowers)
    exact ⟨action', pieces ++ plan.assignments, h, by cases action' <;> simp [Action.followedBy]⟩
  | _ => cases hlowers

theorem Meets.enumText? {piece : Inserted} (h : Meets s task node child (.replace piece))
    (hlowered : piece.lowered) : child.isKind .enumDeclaration ∧
      ∃ baseIndent unit, enumText? s.source child baseIndent unit = some piece.text := by
  obtain ⟨kind, span, marks, children, index, rfl, hfate⟩ := h.fate
  obtain ⟨action, pieces, hstatement, haction⟩ := hfate.statement_of_lowers hlowered
  cases hstatement with
  | enum hkind htext =>
    cases haction
    exact ⟨hkind, _, _, htext⟩
  | _ => cases haction

/-- A namespace that becomes a function can be one. -/
theorem Meets.isLowerable {lowering : Lowering} {before after : List Inserted}
    (h : Meets s task node child (.keep (.function lowering) before after)) :
    child.isKind .moduleDeclaration ∧ isTypeOnlyModule child.children = false ∧
      ∃ kind span, Erasure.isLowerable s.source node.children child ∧
        lowering = Erasure.lowering s.source
          (exportOwner? ⟨kind, span, task, node.children⟩ child) child := by
  obtain ⟨kind, span, marks, children, index, rfl, hfate⟩ := h.fate
  obtain ⟨action, pieces, hstatement, haction⟩ := hfate.statement_of_lowers rfl
  cases hstatement with
  | function hkind hvalue hlowerable =>
    cases haction
    exact ⟨hkind, hvalue, kind, span, hlowerable, rfl⟩
  | _ => cases haction

end Untype.Erasure
