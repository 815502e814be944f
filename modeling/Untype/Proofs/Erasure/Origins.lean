-- Where the nodes of the erased tree come from: each is what a visit made of
-- a node of the source, or lies in type syntax that stays, or was inserted.
import Untype.Proofs.Erasure.Leftovers
import Untype.Proofs.Erasure.Visits

namespace Untype

open Untype.Node

namespace Erasure

variable {s : Setting} {task task' task'' : Task} {w w' w'' : Walk}
  {node node' parent child : Node} {text : String}
variable {kind : NodeKind} {scope : Scope} {index : Nat}

/-! ## Parts that are types -/

theorem token?_of_isKind (h : node.isKind kind) : node.token? = none := by
  obtain ⟨span, marks, children, rfl⟩ := exists_of_isKind h
  rfl

theorem isTypePart_of_isKind (h : node.isKind kind) : node.isTypePart = kind.isTypePart := by
  obtain ⟨span, marks, children, rfl⟩ := exists_of_isKind h
  rfl

/-! ## What happens to a child -/

/-- What decides about a child that is no type and no `export` that goes: the task of its parent,
or else the rule for its parent. -/
theorem verdict_by_task {motive : Verdict → Prop} (howner : constantOwner? s scope index = none)
    (hexport : (child.isToken .exportKeyword && scope.task.dropsExport) = false)
    (hpart : child.isTypePart = false) (function : ∀ lowering, scope.task = .function lowering →
      motive ⟨functionAction s.source lowering child, none⟩)
    (fields : ∀ plan, scope.task = .fields plan → motive
      (if index == plan.position then
        ⟨(childVerdict s scope index child).action.followedBy plan.assignments,
          (childVerdict s scope index child).finding⟩
      else childVerdict s scope index child))
    (other : scope.task.lowers = false → motive (childVerdict s scope index child)) :
    motive (verdict s scope index child) := by
  have hnone : ¬(child.isKind .annotatedType ∨ child.isKind .typeParameters ∨
      child.isKind .typeArguments) := by
    rw [← isTypePart_iff, hpart]
    exact Bool.false_ne_true
  rw [not_or, not_or] at hnone
  unfold verdict
  rw [howner]
  dsimp only
  rw [if_neg (by simp [hexport]), if_neg hnone.1, if_neg hnone.2.1, if_neg hnone.2.2]
  cases htask : scope.task with
  | function lowering => exact function lowering htask
  | fields plan => exact fields plan htask
  | _ => exact other (by rw [htask]; rfl)

theorem verdict_of_isCommon (hkind : scope.kind ≠ .variableDeclaration)
    (htask : scope.task.isCommon)
    (hexport : (child.isToken .exportKeyword && scope.task.dropsExport) = false)
    (hpart : child.isTypePart = false) :
    verdict s scope index child = childVerdict s scope index child := by
  apply verdict_by_task (motive := (· = childVerdict s scope index child))
    (constantOwner?_eq_none index (.inl hkind)) hexport hpart
  · intro lowering hfunction
    rw [hfunction] at htask
    cases htask
  · intro plan hfields
    rw [hfields] at htask
    cases htask
  · exact fun _ => rfl

theorem action_eq (child : Node) (hchild : scope.children[index]? = some child)
    (hcomma : (policy scope.kind).holdsList → child.isToken .comma = false) :
    (actionsOf s scope)[index]? = some (verdict s scope index child).action := by
  cases hlist : (policy scope.kind).holdsList with
  | false => rw [actions_getElem?_of_not_holdsList hlist, hchild, Option.map_some]
  | true =>
    obtain ⟨action, haction, rfl | ⟨hgone, -⟩⟩ := actions_getElem? (s := s) hchild
    · exact haction
    · rw [hcomma hlist] at hgone
      cases hgone

/-- A task for special nodes is given to no other ones. -/
theorem Task.Belongs.isCommon (h : task.Belongs node) (hkind : node.kind? = some kind)
    (hbody : kind ≠ .moduleBlock) (hfunction : kind ≠ .moduleDeclaration)
    (hfields : kind ≠ .block) :
    task.isCommon := by
  have hother : ∀ kind', node.isKind kind' → kind = kind' := by
    intro kind' h'
    simpa [isKind, hkind] using h'
  cases task with
  | functionBody name => exact absurd (hother _ (h.body name rfl)) hbody
  | function lowering => exact absurd (hother _ (h.function lowering rfl)) hfunction
  | fields plan => exact absurd (hother _ (h.fields plan rfl)) hfields
  | _ => rfl

/-! ## What is visited -/

theorem Meets.mem {action : Action} (h : Meets s task parent child action) :
    child ∈ parent.children := by
  obtain ⟨kind, span, marks, children, index, rfl, -, hchild, -⟩ := h
  exact List.mem_of_getElem? hchild

theorem Visits.mem_descendants (h : Visits s task node task' node') : node' ∈ node.descendants := by
  induction h with
  | here => exact mem_descendants_self _
  | child _ hmeets ih => exact mem_descendants_of_mem_children hmeets.mem ih

theorem Meets.belongs (hregular : parent.Regular text) (htask : task.Belongs parent)
    {before after : List Inserted} (h : Meets s task parent child (.keep task' before after)) :
    task'.Belongs child := by
  obtain ⟨kind, span, marks, children, index, rfl, -, hchild, haction⟩ := h
  have hbelong := actions_belong s ⟨kind, span, task, children⟩ marks hregular htask
  obtain ⟨hindex, rfl⟩ := List.getElem?_eq_some_iff.1 hchild
  obtain ⟨hindex', haction⟩ := List.getElem?_eq_some_iff.1 haction
  exact hbelong.get hindex hindex' task' before after haction

theorem Visits.belongs (hregular : node.Regular text) (h : Visits s .none node task' node') :
    task'.Belongs node' := by
  induction h with
  | here => exact Task.belongs_of_isFree rfl _
  | child hparent hmeets ih => exact hmeets.belongs (hregular.of_mem hparent.mem_descendants) ih

/-! ## What a visit makes of a node -/

/-- What becomes of a child, kept with the task and met with the walk, is among what the node is
left with. In front of it are only pieces and what becomes of the children before. -/
inductive Hands (s : Setting) (task : Task) (w : Walk) : Node → Task → Walk → Node → Prop where
  | intro {kind : NodeKind} {span : Span} {marks : Marks} {before after : List Node} {child : Node}
    {task' : Task} {w' : Walk} {pieces pieces' : List Inserted} {front back : List Node} :
    policy kind ≠ .typeSyntax →
    (actions ⟨kind, span, task, before ++ child :: after⟩
      (verdicts s ⟨kind, span, task, before ++ child :: after⟩))[before.length]? =
        some (.keep task' pieces pieces') →
    (visit s task w (branch kind span marks (before ++ child :: after))).node.children =
      front ++ (visit s task' w' child).node :: back →
    (∀ new ∈ front, new.label = .inserted ∨ ∃ old ∈ before, new.label = old.label) →
    Hands s task w (branch kind span marks (before ++ child :: after)) task' w' child

/-- A visit of a node with a task and a walk comes to these nodes with these tasks and walks. -/
inductive Reaches (s : Setting) (task : Task) (w : Walk) (node : Node) :
    Task → Walk → Node → Prop where
  | here : Reaches s task w node task w node
  | child {task' task'' : Task} {w' w'' : Walk} {parent child : Node} :
    Reaches s task w node task' w' parent → Hands s task' w' parent task'' w'' child →
    Reaches s task w node task'' w'' child

theorem Hands.meets (h : Hands s task w parent task' w' child) :
    ∃ before after, Meets s task parent child (.keep task' before after) := by
  obtain ⟨hpolicy, haction, -, -⟩ := h
  exact ⟨_, _, _, _, _, _, _, rfl, hpolicy, by simp, haction⟩

theorem Hands.mem (h : Hands s task w parent task' w' child) :
    (visit s task' w' child).node ∈ (visit s task w parent).node.children := by
  obtain ⟨-, -, hchildren, -⟩ := h
  rw [hchildren]
  simp

theorem Reaches.visits (h : Reaches s task w node task' w' node') :
    Visits s task node task' node' := by
  induction h with
  | here => exact .here
  | child _ hhands ih =>
    obtain ⟨before, after, hmeets⟩ := hhands.meets
    exact ih.child hmeets

theorem Reaches.mem_descendants (h : Reaches s task w node task' w' node') :
    (visit s task' w' node').node ∈ (visit s task w node).node.descendants := by
  induction h with
  | here => exact mem_descendants_self _
  | child _ hhands ih => exact mem_descendants_of_mem_children hhands.mem ih

theorem Hands.reaches (h : Hands s task w parent task' w' child)
    (hchild : Reaches s task' w' child task'' w'' node) :
    Reaches s task w parent task'' w'' node := by
  induction hchild with
  | here => exact .child .here h
  | child _ hhands ih => exact ih.child hhands

section Parts

variable {kind : NodeKind} {span : Span} {marks : Marks} {children : List Node}
  (hpolicy : policy kind ≠ .typeSyntax)

include hpolicy

/-- What becomes of a kept child is handed to its parent. -/
theorem hands_of_partsOf {parts : List (List Node)} {first last : List Node}
    {before after : List Inserted}
    (hnodes : (visit s task w (branch kind span marks children)).node.children = parts.flatten)
    (hparts : PartsOf s children (actionsOf s ⟨kind, span, task, children⟩) parts)
    (hchild : children[index]? = some child)
    (haction : (actionsOf s ⟨kind, span, task, children⟩)[index]? = some (.keep task' before after))
    (hpart : parts[index]? = some (first ++ (visit s task' w' child).node :: last))
    (hfirst : List.Forall₂ IsPiece before first) :
    Hands s task w (branch kind span marks children) task' w' child := by
  obtain ⟨front, back, hflatten, hfront, -⟩ := hparts.around hpart
  obtain ⟨old, later, rfl, rfl⟩ := exists_append_of_getElem? hchild
  have hchildren : (visit s task w (branch kind span marks (old ++ child :: later))).node.children =
      (front ++ first) ++ (visit s task' w' child).node :: (last ++ back) := by
    rw [hnodes, hflatten]
    simp
  refine .intro hpolicy haction hchildren fun new hnew => ?_
  rcases List.mem_append.1 hnew with hnew | hnew
  · obtain ⟨place, hplace, hfrom⟩ := hfront new hnew
    refine hfrom.label_eq.imp_right ?_
    rintro ⟨other, hother, hlabel⟩
    rw [List.getElem?_append_left hplace] at hother
    exact ⟨other, List.mem_of_getElem? hother, hlabel⟩
  · obtain ⟨piece, -, hpiece⟩ := isPiece_of_forall₂ hfirst hnew
    exact .inl hpiece.label_eq

/-- What a node is left with is pieces and what becomes of its children. -/
theorem exists_hands {new : Node}
    (h : new ∈ (visit s task w (branch kind span marks children)).node.children) :
    new.label = .inserted ∨ ∃ task' w' child, child ∈ children ∧
      Hands s task w (branch kind span marks children) task' w' child ∧
        new = (visit s task' w' child).node := by
  obtain ⟨parts, hnodes, hparts⟩ := visit_partsOf hpolicy s task w span marks children
  rw [hnodes] at h
  obtain ⟨part, hmem, hnew⟩ := List.mem_flatten.1 h
  obtain ⟨index, hpart⟩ := List.mem_iff_getElem?.1 hmem
  obtain ⟨child, action, hchild, haction, hbecomes⟩ := hparts.exists_child hpart
  cases hbecomes with
  | kept hfront hback =>
    rcases List.mem_append.1 hnew with hnew | hnew
    · obtain ⟨piece, -, hpiece⟩ := isPiece_of_forall₂ hfront hnew
      exact .inl hpiece.label_eq
    · rcases List.mem_cons.1 hnew with rfl | hnew
      · exact .inr ⟨_, _, child, List.mem_of_getElem? hchild,
          hands_of_partsOf hpolicy hnodes hparts hchild haction hpart hfront, rfl⟩
      · obtain ⟨piece, -, hpiece⟩ := isPiece_of_forall₂ hback hnew
        exact .inl hpiece.label_eq
  | replaced hpiece =>
    obtain rfl := List.mem_singleton.1 hnew
    exact .inl hpiece.label_eq
  | removed => cases hnew

end Parts

theorem exists_label (h : child ∈ node.children) : ∃ kind, node.label = .branch kind := by
  cases node with
  | branch kind span marks children => exact ⟨kind, rfl⟩
  | leaf token | inserted piece => cases h

/-- Every node of the new tree was inserted, or a visit of an old node made it, or it lies in type
syntax that stays. -/
theorem exists_reaches (s : Setting) (node : Node) (task : Task) (w : Walk) (part : Node)
    (hpart : part ∈ (visit s task w node).node.descendants) : part.label = .inserted ∨
      ∃ task' w' old, Reaches s task w node task' w' old ∧
        (part = (visit s task' w' old).node ∨
          old.isTypeSyntax ∧ part ∈ (visit s task' w' old).node.descendants) := by
  induction node using Node.induct generalizing task w with
  | step node ih =>
    rcases mem_descendants_iff.1 hpart with rfl | ⟨new, hnew, hbelow⟩
    · exact .inr ⟨task, w, node, .here, .inl rfl⟩
    obtain ⟨kind, hlabel⟩ := exists_label hnew
    rw [(label_visit s task w node).1] at hlabel
    cases node with
    | leaf token | inserted piece => cases hlabel
    | branch kind span marks children =>
      by_cases hpolicy : policy kind = .typeSyntax
      · exact .inr ⟨task, w, _, .here, .inr ⟨by simp [isTypeSyntax, label, Label.satisfies,
          hpolicy], hpart⟩⟩
      rcases exists_hands hpolicy hnew with hpiece | ⟨task', w', child, hchild, hhands, rfl⟩
      · rcases mem_descendants_iff.1 hbelow with rfl | ⟨other, hother, -⟩
        · exact .inl hpiece
        · obtain ⟨kind, hlabel⟩ := exists_label hother
          cases hpiece.symm.trans hlabel
      · refine (ih child hchild task' w' hbelow).imp_right ?_
        rintro ⟨task'', w'', old, hreaches, hold⟩
        exact ⟨task'', w'', old, hhands.reaches hreaches, hold⟩

/-! ## What is told -/

/-- Type syntax that is visited is told. -/
theorem Visits.told (h : Visits s task node task' node') (htype : node'.isTypeSyntax) (w : Walk) :
    findingAt node' (.typeSyntaxKept (excerpt (node'.text s.source))) ∈
      (visit s task w node).walk.findings := by
  have hsteps : steps s task' node' = [.stay node'] := by
    cases node' with
    | branch kind span marks children => rw [steps]; exact if_pos htype
    | _ => cases htype
  obtain ⟨front, back, hsplit⟩ :=
    List.append_of_mem (h.isInfix.subset (hsteps ▸ List.mem_singleton_self _))
  rw [(visit_follows s node task w).2, hsplit, Step.walkAlong_append]
  exact findings_subset_walkAlong back (by simp [Step.next, visitTypeSyntax, Walk.past])

/-- What lies in type syntax that a visit leaves lies in type syntax that is told. -/
theorem Reaches.told {part : Node} (h : Reaches s task w node task' w' node')
    (htype : node'.isTypeSyntax) (hpart : part ∈ (visit s task' w' node').node.descendants) :
    ∃ kept ∈ (visit s task w node).node.descendants, kept.isTypeSyntax ∧ part ∈ kept.descendants ∧
      findingAt kept (.typeSyntaxKept (excerpt (kept.text s.source))) ∈
        (visit s task w node).walk.findings := by
  obtain ⟨hlabel, hspan⟩ := label_visit s task' w' node'
  refine ⟨_, h.mem_descendants, by rwa [isTypeSyntax, hlabel], hpart, ?_⟩
  rw [findingAt, Node.text, hspan]
  exact h.visits.told htype w

end Erasure

open Erasure

variable {variant : Variant} {file text : String} {tree : SyntaxTree}

/-- The erasure is complete up to what it tells. A node that it leaves lies in type syntax that
it tells about, or it is no type syntax and, if it is an expression with a type, has nothing
left but its operand. So where no type syntax is told about, none is left. -/
theorem SyntaxTree.erase_complete (hparse : SyntaxTree.parseAs variant file text = .ok tree)
    (options : Options) :
    (∀ part ∈ (tree.erase options).tree.root.descendants,
      (∃ kept ∈ (tree.erase options).tree.root.descendants,
        kept.isTypeSyntax = true ∧ part ∈ kept.descendants ∧
          findingAt kept (.typeSyntaxKept (excerpt (kept.text text))) ∈
            (tree.erase options).findings) ∨
      part.isTypeSyntax = false ∧
        (part.isCast = true → ∃ old ∈ tree.root.descendants, Reduces old part)) ∧
    ((∀ finding ∈ (tree.erase options).findings, ∀ excerpt,
        finding.problem ≠ .typeSyntaxKept excerpt) →
      ∀ part ∈ (tree.erase options).tree.root.descendants, part.isTypeSyntax = false) := by
  have hregular := parseAs_regular hparse
  obtain ⟨rfl, -⟩ := parseAs_tiles hparse
  have hcases := exists_reaches (.ofTree options tree.source tree.root) tree.root .none {}
  refine (and_iff_left_of_imp fun hall hsilent part hpart => ?_).2 fun part hpart => ?_
  · rcases hall part hpart with ⟨kept, -, -, -, htold⟩ | ⟨htype, -⟩
    · exact absurd rfl (hsilent _ htold _)
    · exact htype
  rcases hcases part hpart with hinserted | ⟨task, w, old, hreaches, rfl | ⟨htype, hbelow⟩⟩
  · cases part with
    | inserted piece => exact .inr ⟨rfl, nofun⟩
    | _ => cases hinserted
  · cases htype : old.isTypeSyntax with
    | true => exact .inl (hreaches.told htype (mem_descendants_self _))
    | false =>
      obtain ⟨hlabel, -⟩ := label_visit (.ofTree options tree.source tree.root) task w old
      refine .inr ⟨by rwa [isTypeSyntax, hlabel],
        fun hcast => ⟨old, hreaches.visits.mem_descendants, ?_⟩⟩
      rw [isCast, hlabel] at hcast
      cases old with
      | branch kind span marks children =>
        have hshape := (hregular.of_mem hreaches.visits.mem_descendants).branch.1
        exact visit_reduces _ w span marks hcast ((hreaches.visits.belongs hregular).plain
          (NodeKind.isOperand_of_isCast hcast)) (hshape (by rintro rfl; cases hcast))
      | _ => cases hcast
  · exact .inl (hreaches.told htype hbelow)

/-- An interface that stays, and an operand that gets parentheses. -/
theorem SyntaxTree.erase_complete_interface :
    ∃ tree, SyntaxTree.parseAs .standard "a.ts" "if (a) interface I {}\n<T>{}\nc = d as E;" =
        .ok tree ∧
      (∀ part ∈ (tree.erase {}).tree.root.descendants,
        (∃ kept ∈ (tree.erase {}).tree.root.descendants,
          kept.isTypeSyntax = true ∧ part ∈ kept.descendants ∧
            findingAt kept (.typeSyntaxKept
              (excerpt (kept.text "if (a) interface I {}\n<T>{}\nc = d as E;"))) ∈
              (tree.erase {}).findings) ∨
        part.isTypeSyntax = false ∧
          (part.isCast = true → ∃ old ∈ tree.root.descendants, Reduces old part)) :=
  SyntaxTree.exists_parsed (by decide +kernel) fun _ hparse =>
    (SyntaxTree.erase_complete hparse {}).1

end Untype
