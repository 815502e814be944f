-- The uses in a tree and in its parts. Uses are not looked for in imports,
-- nor in front of the sign of an import with an equals sign.
import Untype.Erasure.Usage
import Untype.Proofs.Tilings

namespace Untype

open Untype.Node

namespace Node

variable {root part : Node}

/-! ## Where uses are looked for -/

/-- What lies below this child is not looked at for uses: the node is an import, or one with an
equals sign and the child comes before what stands behind the sign. -/
def Overlooks (holder child : Node) : Prop :=
  holder.isKind .importDeclaration ∧ child ∈ holder.children ∨
    holder.isKind .importEqualsDeclaration ∧ ∃ before after,
      holder.children = before ++ child :: after ∧ ∃ later ∈ after, later.isToken .semicolon = false

/-- The part lies where uses are not looked for. -/
def Overlooked (root part : Node) : Prop :=
  ∃ holder ∈ root.descendants, ∃ child, holder.Overlooks child ∧ part ∈ child.descendants

/-- The names below the node are uses in types. -/
def isTypeContext : Node → Bool
  | branch kind _ _ children => Erasure.isTypeContext kind children
  | _ => false

/-- The node is a clause with `implements`. -/
def isImplements (node : Node) : Bool :=
  node.isKind .heritageClause && node.hasToken .implementsKeyword

theorem Overlooked.mono {root' : Node} (h : root.Overlooked part)
    (hroot : root ∈ root'.descendants) :
    root'.Overlooked part := by
  obtain ⟨holder, hholder, hpart⟩ := h
  exact ⟨holder, descendants_subset hroot hholder, hpart⟩

theorem Overlooked.below {part' : Node} (h : root.Overlooked part)
    (hpart : part' ∈ part.descendants) : root.Overlooked part' := by
  obtain ⟨holder, hholder, child, hchild, hbelow⟩ := h
  exact ⟨holder, hholder, child, hchild, descendants_subset hbelow hpart⟩

end Node

namespace Erasure

variable {source : String} {inType : Bool} {kind : NodeKind} {span : Span} {marks : Marks}
  {node child part : Node} {children before after : List Node}

/-! ## Uses of a node and of its children -/

theorem uses_branch (himport : kind ≠ .importDeclaration)
    (hequals : kind ≠ .importEqualsDeclaration) :
    uses source inType (branch kind span marks children) =
      elementUse kind ++ usesOf source (inType || isTypeContext kind children) children := by
  rw [uses]
  · exact himport
  · exact hequals

theorem mem_usesOf {use : Use} :
    use ∈ usesOf source inType children ↔ ∃ child ∈ children, use ∈ uses source inType child := by
  induction children with
  | nil => simp [usesOf]
  | cons child rest ih => simp [usesOf, ih]

theorem usesOfReference_eq (hchild : child.isToken .semicolon = false)
    (hafter : ∀ later ∈ after, later.isToken .semicolon) :
    usesOfReference source inType (before ++ child :: after) = uses source inType child := by
  induction before with
  | nil => simp [usesOfReference, hchild, List.all_eq_true.2 hafter]
  | cons first before ih =>
    have hmore : (before ++ child :: after).all (isToken .semicolon) = false := by simp [hchild]
    rw [List.cons_append, usesOfReference, hmore, if_neg Bool.false_ne_true, ih]

theorem uses_semicolon (h : child.isToken .semicolon) : uses source inType child = [] := by
  cases child with
  | leaf token =>
    have hkind : token.kind = .semicolon := by simpa [isToken, token?] using h
    simp [uses, hkind]
  | inserted piece | branch kind span marks children => cases h

/-- The uses of a child are uses of the node, unless they are not looked for. -/
theorem uses_child (source : String) (inType : Bool) (kind : NodeKind) (span : Span)
    (marks : Marks) (before : List Node) (child : Node) (after : List Node) :
    (uses source (inType || isTypeContext kind (before ++ child :: after)) child ⊆
      uses source inType (branch kind span marks (before ++ child :: after))) ∨
    kind = .importDeclaration ∨
    kind = .importEqualsDeclaration ∧ ∃ later ∈ after, later.isToken .semicolon = false := by
  by_cases himport : kind = .importDeclaration
  · exact .inr (.inl himport)
  by_cases hequals : kind = .importEqualsDeclaration
  · subst hequals
    cases hafter : after.all (isToken .semicolon) with
    | false =>
      obtain ⟨later, hlater, hother⟩ := List.all_eq_false.1 hafter
      exact .inr (.inr ⟨rfl, later, hlater, by simpa using hother⟩)
    | true =>
      refine .inl fun use huse => ?_
      have hcontext : (inType || isTypeContext .importEqualsDeclaration
          (before ++ child :: after)) = inType := Bool.or_false inType
      rw [hcontext] at huse
      cases hchild : child.isToken .semicolon with
      | true => simp [uses_semicolon hchild] at huse
      | false => rwa [uses, usesOfReference_eq hchild (List.all_eq_true.1 hafter)]
  · refine .inl fun use huse => ?_
    rw [uses_branch himport hequals]
    exact List.mem_append_right _ (mem_usesOf.2 ⟨child, by simp, huse⟩)

theorem overlooks_of_position (h : kind = .importDeclaration ∨
    kind = .importEqualsDeclaration ∧ ∃ later ∈ after, later.isToken .semicolon = false) :
    (branch kind span marks (before ++ child :: after)).Overlooks child := by
  rcases h with rfl | ⟨rfl, hlater⟩
  · exact .inl ⟨rfl, by simp [Node.children]⟩
  · exact .inr ⟨rfl, before, after, rfl, hlater⟩

theorem uses_of_mem (himport : kind ≠ .importDeclaration)
    (hequals : kind ≠ .importEqualsDeclaration) (hcontext : isTypeContext kind children = false)
    (hchild : child ∈ children) :
    uses source inType child ⊆ uses source inType (branch kind span marks children) := by
  intro use huse
  rw [uses_branch himport hequals, hcontext, Bool.or_false]
  exact List.mem_append_right _ (mem_usesOf.2 ⟨child, hchild, huse⟩)

theorem uses_name {name : String} (hkind : part.isToken .identifier)
    (hname : part.text source = name) : .value name ∈ uses source false part := by
  cases part with
  | leaf token =>
    have htoken : token.kind = .identifier := by simpa [isToken, token?] using hkind
    rw [uses, if_pos (by simp [htoken])]
    simpa [Node.text, Node.span] using hname.symm
  | inserted piece | branch kind span marks children => cases hkind

/-- The uses of a part of a tree are uses of the tree, as values or as types, unless they are not
looked for. -/
theorem uses_descendant (source : String) (node : Node) (inType : Bool) (part : Node)
    (hpart : part ∈ node.descendants) : node.Overlooked part ∨
      (uses source inType part ⊆ uses source inType node) ∨
      (∃ holder ∈ node.descendants, holder.isTypeContext ∧ part ∈ holder.descendants) ∧
        uses source true part ⊆ uses source inType node := by
  induction node using Node.induct generalizing inType with
  | step node ih =>
    rcases mem_descendants_iff.1 hpart with rfl | ⟨child, hchild, hbelow⟩
    · exact .inr (.inl fun _ huse => huse)
    have hmem : child ∈ node.descendants :=
      child_mem_descendants hchild
    have hchildUses := fun inType => ih child hchild inType hbelow
    cases node with
    | leaf token | inserted piece => cases hchild
    | branch kind span marks children =>
      obtain ⟨before, after, rfl⟩ := List.append_of_mem hchild
      rcases uses_child source inType kind span marks before child after with hsubset | hposition
      · rcases hchildUses (inType || isTypeContext kind (before ++ child :: after)) with
          hoverlooked | huses | ⟨⟨holder, hholder, hcontext, hpart⟩, huses⟩
        · exact .inl (hoverlooked.mono hmem)
        · cases hcontext : isTypeContext kind (before ++ child :: after) with
          | false =>
            rw [hcontext, Bool.or_false] at huses hsubset
            exact .inr (.inl fun use huse => hsubset (huses huse))
          | true =>
            rw [hcontext, Bool.or_true] at huses hsubset
            exact .inr (.inr ⟨⟨_, mem_descendants_self _, hcontext, hpart⟩,
              fun use huse => hsubset (huses huse)⟩)
        · exact .inr (.inr ⟨⟨holder, descendants_subset hmem hholder, hcontext, hpart⟩,
            fun use huse => hsubset (huses huse)⟩)
      · exact .inl ⟨_, mem_descendants_self _, child, overlooks_of_position hposition, hbelow⟩

end Erasure

end Untype
