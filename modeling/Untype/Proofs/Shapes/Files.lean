-- Every node of a file has the shape of its kind, and the operators of a file
-- hold together what their strengths say, though not always without the casts.
import Untype.Convert
import Untype.Proofs.Lossless.Files

namespace Untype.SyntaxTree

open Untype.Node Untype.Grammar

variable {variant : Variant} {file text : String} {tree : SyntaxTree}

theorem parseAs_regular (h : parseAs variant file text = .ok tree) : tree.root.Regular text := by
  obtain ⟨root, state, rfl, hdone⟩ := exists_of_parseAs h
  obtain ⟨-, -, -, -, -, -, -, hregular⟩ := sourceFile_fits hdone
  exact hregular

/-- Wherever two operands stand in the tree of a file, the operator between them has what its
strength leaves to it, unless it is a comma or an assignment, which bind nothing. -/
theorem parseAs_groups_operators (h : parseAs variant file text = .ok tree)
    {node : Node} (hnode : node ∈ tree.root.descendants)
    (hkind : node.isKind .binaryExpression = true) :
    ∃ left sign right operator, node.children = [left, sign, right] ∧
      sign.token? = some operator ∧ node.operator? = some operator ∧
      (0 < bindingStrength operator → Grouped operator left right) ∧
      (bindingStrength operator = 0 ↔ operator = .comma ∨
        operator.isAssignmentOperator = true) := by
  obtain ⟨span, marks, children, rfl⟩ := exists_of_isKind hkind
  obtain ⟨left, sign, right, operator, rfl, -, hsign, hgroups⟩ :=
    ((parseAs_regular h).of_mem hnode).branch.1 (by simp)
  refine ⟨left, sign, right, operator, rfl, hsign, hsign, fun hbinds => ?_, fun hweak => ?_, ?_⟩
  · exact (hgroups.resolve_right (not_loose_of_binds hbinds)).2
  · exact hgroups.resolve_left fun hbinds => Nat.ne_of_gt hbinds.1 hweak
  · intro hloose
    by_contra hbinds
    exact not_loose_of_binds (Nat.pos_of_ne_zero hbinds) hloose

/-- A chain with operators of one strength, with `**` twice, a type and a `>>`. -/
theorem parseAs_groups_operators_chain :
    ∃ tree, parseAs .standard "a.ts" "x = a - b - c ** d ** e * f as T >> g, h" = .ok tree ∧
      ∃ node ∈ tree.root.descendants, node.operator? = some .asteriskAsterisk ∧
        ∃ left sign right operator, node.children = [left, sign, right] ∧
          sign.token? = some operator ∧ right.operator? = some .asteriskAsterisk ∧
          Grouped operator left right := by
  obtain ⟨tree, htree, node, hnode, hkind, hpower, hinner⟩ : ∃ tree,
      parseAs .standard "a.ts" "x = a - b - c ** d ** e * f as T >> g, h" = .ok tree ∧
      ∃ node ∈ tree.root.descendants, node.isKind .binaryExpression = true ∧
        node.operator? = some .asteriskAsterisk ∧
        node.children.getLast?.any (·.operator? == some .asteriskAsterisk) = true :=
    exists_checked (by decide +kernel)
  obtain ⟨left, sign, right, operator, hchildren, hsign, hoperator, hgroups, -⟩ :=
    parseAs_groups_operators htree hnode hkind
  rw [hchildren] at hinner
  obtain rfl : operator = .asteriskAsterisk := Option.some.inj (hoperator.symm.trans hpower)
  exact ⟨tree, htree, node, hnode, hpower, left, sign, right, _, hchildren,
    hsign, by simpa using hinner, hgroups (by decide)⟩

end Untype.SyntaxTree
