-- What the walk makes of the children of a node, one by one. Each child gives
-- way to a few nodes side by side, and its action decides which.
import Untype.Proofs.Erasure.Steps

namespace Untype.Erasure

open Untype.Node

variable {s : Setting} {node node' child new : Node} {action : Action} {part : List Node}

/-! ## Labels -/

theorem kind?_of_label_eq (h : node.label = node'.label) : node.kind? = node'.kind? := by
  cases node <;> cases node' <;> simp_all [label, kind?]

theorem token?_of_label_eq (h : node.label = node'.label) : node.token? = node'.token? := by
  cases node <;> cases node' <;> simp_all [label, token?]

theorem isToken_of_label_eq (h : node.label = node'.label) (kind : TokenKind) :
    node.isToken kind = node'.isToken kind := by
  rw [isToken, isToken, token?_of_label_eq h]

/-! ## One child -/

/-- The node is an inserted piece with this text. -/
def IsPiece (piece : Inserted) (new : Node) : Prop :=
  ∃ left, new = inserted left ∧ left.text = piece.text

theorem IsPiece.label_eq {piece : Inserted} (h : IsPiece piece new) : new.label = .inserted := by
  obtain ⟨left, rfl, -⟩ := h
  rfl

theorem isPiece_visitLeaf (source : String) (w : Walk) (piece : Inserted) :
    IsPiece piece (visitLeaf source w (inserted piece)).node := by
  have hlabel : (visitLeaf source w (inserted piece)).node.label = .inserted := label_visitLeaf
  have htext : leafText source (visitLeaf source w (inserted piece)).node = piece.text :=
    leafText_visitLeaf
  generalize (visitLeaf source w (inserted piece)).node = new at hlabel htext
  cases new with
  | inserted left => exact ⟨left, rfl, htext⟩
  | leaf token | branch kind span marks children => cases hlabel

theorem isPiece_visitPieces (source : String) (policy : Policy) (w : Walk)
    (pieces : List Inserted) :
    List.Forall₂ IsPiece pieces (visitPieces source policy w pieces).1 := by
  induction pieces generalizing w with
  | nil => exact .nil
  | cons piece pieces ih => exact .cons (isPiece_visitLeaf source w piece) (ih _)

/-- What an action makes of a child. -/
inductive Becomes (s : Setting) (child : Node) : Action → List Node → Prop where
  | kept {task : Task} {w : Walk} {before after : List Inserted} {front back : List Node} :
    List.Forall₂ IsPiece before front → List.Forall₂ IsPiece after back →
    Becomes s child (.keep task before after) (front ++ (visit s task w child).node :: back)
  | replaced {piece : Inserted} {new : Node} : IsPiece piece new →
      Becomes s child (.replace piece) [new]
  | removed {removal : Removal} : Becomes s child (.remove removal) []

/-- The pieces that the action inserts. -/
def Action.pieces : Action → List Inserted
  | .keep _ before after => before ++ after
  | .replace piece => [piece]
  | .remove _ => []

theorem isPiece_of_forall₂ {pieces : List Inserted} {nodes : List Node}
    (h : List.Forall₂ IsPiece pieces nodes) (hnew : new ∈ nodes) :
    ∃ piece ∈ pieces, IsPiece piece new := by
  induction h with
  | nil => cases hnew
  | cons hpiece _ ih =>
    rcases List.mem_cons.1 hnew with rfl | hnew
    · exact ⟨_, List.mem_cons_self, hpiece⟩
    · obtain ⟨piece, hmem, hpiece⟩ := ih hnew
      exact ⟨piece, List.mem_cons_of_mem _ hmem, hpiece⟩

/-- A child becomes itself, changed inside, and the pieces. -/
theorem Becomes.cases_of_mem (h : Becomes s child action part) (hnew : new ∈ part) :
    (∃ piece ∈ action.pieces, IsPiece piece new) ∨
      ∃ task before after w, action = .keep task before after ∧
        new = (visit s task w child).node := by
  cases h with
  | kept hfront hback =>
    rcases List.mem_append.1 hnew with hnew | hnew
    · obtain ⟨piece, hmem, hpiece⟩ := isPiece_of_forall₂ hfront hnew
      exact .inl ⟨piece, List.mem_append_left _ hmem, hpiece⟩
    · rcases List.mem_cons.1 hnew with rfl | hnew
      · exact .inr ⟨_, _, _, _, rfl, rfl⟩
      · obtain ⟨piece, hmem, hpiece⟩ := isPiece_of_forall₂ hback hnew
        exact .inl ⟨piece, List.mem_append_right _ hmem, hpiece⟩
  | replaced hpiece =>
    obtain rfl := List.mem_singleton.1 hnew
    exact .inl ⟨_, List.mem_singleton_self _, hpiece⟩
  | removed => cases hnew

theorem Becomes.label_eq (h : Becomes s child action part) (hnew : new ∈ part) :
    new.label = .inserted ∨ new.label = child.label := by
  rcases h.cases_of_mem hnew with ⟨piece, -, hpiece⟩ | ⟨task, before, after, w, -, rfl⟩
  · exact .inl hpiece.label_eq
  · exact .inr (label_visit s task w child).1

/-- What becomes of a child that is kept alone. -/
theorem Becomes.of_stay {task : Task} (h : Becomes s child (.keep task [] []) part) :
    ∃ w, part = [(visit s task w child).node] := by
  cases h with
  | kept hfront hback =>
    cases hfront
    cases hback
    exact ⟨_, rfl⟩

/-! ## All children -/

theorem exists_append_of_getElem? {α : Type} {as : List α} {a : α} {index : Nat}
    (h : as[index]? = some a) : ∃ front back, as = front ++ a :: back ∧ front.length = index := by
  obtain ⟨hindex, rfl⟩ := List.getElem?_eq_some_iff.1 h
  exact ⟨as.take index, as.drop (index + 1), by simp, by simp; omega⟩

/-- The parts are what becomes of the children by these actions, one for each. -/
inductive PartsOf (s : Setting) : List Node → List Action → List (List Node) → Prop where
  | nil : PartsOf s [] [] []
  | cons {child : Node} {action : Action} {part : List Node} {children : List Node}
    {acts : List Action} {parts : List (List Node)} :
    Becomes s child action part → PartsOf s children acts parts →
    PartsOf s (child :: children) (action :: acts) (part :: parts)

theorem exists_partsOf {policy : Policy} :
    ∀ (children : List Node) (lastKept : Option Label) (w : Walk) (acts : List Action),
      acts.length = children.length →
    ∃ parts, (visitAll s policy lastKept w acts children).nodes = parts.flatten ∧
      PartsOf s children acts parts
  | [], lastKept, w, [], hlength => ⟨[], by rw [visitAll, List.flatten_nil], .nil⟩
  | [], lastKept, w, action :: acts, hlength => by cases hlength
  | child :: rest, lastKept, w, [], hlength => by cases hlength
  | child :: rest, lastKept, w, action :: acts, hlength => by
    have hlater : ∀ lastKept w part, Becomes s child action part → ∃ parts,
        part ++ (visitAll s policy lastKept w acts rest).nodes = parts.flatten ∧
          PartsOf s (child :: rest) (action :: acts) parts := by
      intro lastKept w part hpart
      obtain ⟨parts, hnodes, hparts⟩ := exists_partsOf rest lastKept w acts (Nat.succ.inj hlength)
      exact ⟨part :: parts, by rw [hnodes, List.flatten_cons], .cons hpart hparts⟩
    rw [visitAll]
    simp only [List.headD_cons, List.tail_cons]
    cases action with
    | remove removal => simpa using hlater lastKept _ [] .removed
    | replace piece => exact hlater _ _ _ (.replaced (isPiece_visitLeaf s.source _ piece))
    | keep task before after =>
      exact hlater _ _ _ (.kept (isPiece_visitPieces s.source policy _ before)
        (isPiece_visitPieces s.source policy _ after))

/-- The node is in what becomes of the child at this place. -/
def ComesFrom (s : Setting) (children : List Node) (acts : List Action) (index : Nat) (new : Node) :
    Prop :=
  ∃ child action part, children[index]? = some child ∧ acts[index]? = some action ∧
    Becomes s child action part ∧ new ∈ part

section PartsOf

variable {children : List Node} {acts : List Action} {parts : List (List Node)} {index : Nat}

theorem ComesFrom.label_eq (h : ComesFrom s children acts index new) :
    new.label = .inserted ∨ ∃ old, children[index]? = some old ∧ new.label = old.label := by
  obtain ⟨child, action, part, hchild, -, hbecomes, hnew⟩ := h
  exact (hbecomes.label_eq hnew).imp_right fun hlabel => ⟨child, hchild, hlabel⟩

section Parts

variable (h : PartsOf s children acts parts)

include h

theorem PartsOf.exists_child (hpart : parts[index]? = some part) :
    ∃ child action, children[index]? = some child ∧ acts[index]? = some action ∧
      Becomes s child action part := by
  induction h generalizing index with
  | nil => simp at hpart
  | cons hbecomes _ ih =>
    cases index with
    | zero =>
      obtain rfl := Option.some.inj hpart
      exact ⟨_, _, rfl, rfl, hbecomes⟩
    | succ index => exact ih hpart

theorem PartsOf.exists_part (hchild : children[index]? = some child)
    (haction : acts[index]? = some action) :
    ∃ part, parts[index]? = some part ∧ Becomes s child action part := by
  induction h generalizing index with
  | nil => simp at hchild
  | cons hbecomes _ ih =>
    cases index with
    | zero =>
      obtain rfl := Option.some.inj hchild
      obtain rfl := Option.some.inj haction
      exact ⟨_, rfl, hbecomes⟩
    | succ index => exact ih hchild haction

theorem PartsOf.comesFrom (hpart : parts[index]? = some part)
    (hnew : new ∈ part) : ComesFrom s children acts index new := by
  obtain ⟨child, action, hchild, haction, hbecomes⟩ := h.exists_child hpart
  exact ⟨child, action, part, hchild, haction, hbecomes, hnew⟩

/-- What becomes of one child stands between what becomes of the others. -/
theorem PartsOf.around (hpart : parts[index]? = some part) :
    ∃ front back, parts.flatten = front ++ part ++ back ∧
      (∀ new ∈ front, ∃ place, place < index ∧ ComesFrom s children acts place new) ∧
      ∀ new ∈ back, ∃ place, index < place ∧ ComesFrom s children acts place new := by
  obtain ⟨front, back, rfl, rfl⟩ := exists_append_of_getElem? hpart
  refine ⟨front.flatten, back.flatten, by simp, fun new hnew => ?_, fun new hnew => ?_⟩
  · obtain ⟨other, hother, hnew⟩ := List.mem_flatten.1 hnew
    obtain ⟨place, hplace⟩ := List.mem_iff_getElem?.1 hother
    have hlt := (List.getElem?_eq_some_iff.1 hplace).1
    exact ⟨place, hlt, h.comesFrom ((List.getElem?_append_left hlt).trans hplace) hnew⟩
  · obtain ⟨other, hother, hnew⟩ := List.mem_flatten.1 hnew
    obtain ⟨place, hplace⟩ := List.mem_iff_getElem?.1 hother
    refine ⟨front.length + (place + 1), by omega, h.comesFrom ?_ hnew⟩
    rw [List.getElem?_append_right (Nat.le_add_right _ _), Nat.add_sub_cancel_left,
      List.getElem?_cons_succ, hplace]

theorem PartsOf.forall₂ {good : Node → List Node → Prop}
    (hgood : ∀ (index : Nat) child action part, children[index]? = some child →
      acts[index]? = some action →
      Becomes s child action part → good child part) : List.Forall₂ good children parts := by
  induction h with
  | nil => exact .nil
  | cons hbecomes _ ih =>
    exact .cons (hgood 0 _ _ _ rfl rfl hbecomes) (ih fun index => hgood (index + 1))

end Parts

end PartsOf

theorem visit_partsOf {kind : NodeKind} (hpolicy : Erasure.policy kind ≠ .typeSyntax) (s : Setting)
    (task : Task) (w : Walk) (span : Span) (marks : Marks) (children : List Node) :
    ∃ parts, (visit s task w (branch kind span marks children)).node.children = parts.flatten ∧
      PartsOf s children (actionsOf s ⟨kind, span, task, children⟩) parts := by
  rw [visit, if_neg (by simpa using hpolicy)]
  exact exists_partsOf children none _ _ actions_length

end Untype.Erasure
