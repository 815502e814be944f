-- What the walk keeps is left in the new tree: every node that is visited,
-- and every piece that takes the place of a child.
import Untype.Proofs.Erasure.Origins
import Untype.Proofs.Erasure.Pruning

namespace Untype.Erasure

open Untype.Node

variable {s : Setting} {task task' : Task} {node node' parent child : Node} {policy : Policy}
variable {before after : List Inserted}

theorem face_visit (s : Setting) (task : Task) (w : Walk) (node : Node) :
    (visit s task w node).node.face = node.face := by
  obtain ⟨hlabel, hspan⟩ := label_visit s task w node
  rw [face, face, hlabel, hspan]

/-- What becomes of a child is left with its parent. -/
theorem Meets.exists_part {action : Action} (h : Meets s task parent child action) (w : Walk) :
    ∃ part, Becomes s child action part ∧ part ⊆ (visit s task w parent).node.children := by
  obtain ⟨kind, span, marks, children, index, rfl, hpolicy, hchild, haction⟩ := h
  obtain ⟨parts, hnodes, hparts⟩ := visit_partsOf hpolicy s task w span marks children
  obtain ⟨part, hpart, hbecomes⟩ := hparts.exists_part hchild haction
  refine ⟨part, hbecomes, fun new hnew => ?_⟩
  rw [hnodes]
  exact List.mem_flatten.2 ⟨part, List.mem_of_getElem? hpart, hnew⟩

theorem Meets.hands (h : Meets s task parent child (.keep task' before after)) (w : Walk) :
    ∃ w', Hands s task w parent task' w' child := by
  obtain ⟨kind, span, marks, children, index, rfl, hpolicy, hchild, haction⟩ := h
  obtain ⟨parts, hnodes, hparts⟩ := visit_partsOf hpolicy s task w span marks children
  obtain ⟨part, hpart, hbecomes⟩ := hparts.exists_part hchild haction
  cases hbecomes with
  | kept hfront _ => exact ⟨_, hands_of_partsOf hpolicy hnodes hparts hchild haction hpart hfront⟩

/-- A visit reaches every node that the walk visits. -/
theorem Visits.reaches (h : Visits s task node task' node') (w : Walk) :
    ∃ w', Reaches s task w node task' w' node' := by
  induction h with
  | here => exact ⟨w, .here⟩
  | child _ hmeets ih =>
    obtain ⟨w', hparent⟩ := ih
    obtain ⟨w'', hhands⟩ := hmeets.hands w'
    exact ⟨w'', hparent.child hhands⟩

theorem Meets.exists_left {task'' : Task} {part : Node}
    (h : Meets s task parent child (.keep task' before after))
    (hpart : Visits s task' child task'' part) (w : Walk) :
    ∃ left ∈ (visit s task w parent).node.children, left.face = child.face ∧
      ∃ new ∈ left.descendants, new.face = part.face := by
  obtain ⟨w', hhands⟩ := h.hands w
  obtain ⟨w'', hreaches⟩ := hpart.reaches w'
  exact ⟨_, hhands.mem, face_visit s task' w' child, _, hreaches.mem_descendants,
    face_visit s task'' w'' part⟩

theorem Meets.exists_piece {piece : Inserted} (h : Meets s task parent child (.replace piece))
    (w : Walk) : ∃ left, inserted left ∈ (visit s task w parent).node.children ∧
      left.text = piece.text := by
  obtain ⟨part, hbecomes, hsubset⟩ := h.exists_part w
  cases hbecomes with
  | replaced hpiece =>
    obtain ⟨left, rfl, htext⟩ := hpiece
    exact ⟨left, hsubset (List.mem_singleton_self _), htext⟩

end Untype.Erasure
