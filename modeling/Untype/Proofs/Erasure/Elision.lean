-- Which imports are dropped: only those whose names the file does not use
-- when it runs, as far as uses are looked for. They are not looked for in
-- imports, nor in front of the sign of an import with an equals sign.
import Untype.Proofs.Erasure.Enums
import Untype.Proofs.Erasure.Origins

namespace Untype

open Untype.Node

namespace Node

/-- The part stays although its name does not count as a use: it lies in an import, or is the name
that an import with an equals sign declares, or lies in a decorator of that. -/
def Spares (holder part : Node) : Prop :=
  holder.isKind .importDeclaration ∧ part ∈ holder.descendants ∨
    holder.isKind .importEqualsDeclaration ∧
      (holder.children.find? (isToken .identifier) = some part ∨
        ∃ decorator ∈ holder.children, decorator.isKind .decorator ∧
          part ∈ decorator.descendants)

/-- The node is an element or a fragment. -/
def isElement (node : Node) : Bool :=
  node.isKind .jsxElement || node.isKind .jsxSelfClosingElement || node.isKind .jsxFragment

end Node

namespace Erasure

variable {s : Setting} {source : String} {inType : Bool} {kind : NodeKind} {span : Span}
  {marks : Marks} {node child part : Node} {children before after : List Node}
variable {text name : String} {task : Task} {root statement binding : Node} {w : Walk}
  {scope : Scope} {index : Nat}

/-! ## Uses on the way of the walk -/

theorem policy_of_isTypeContext (h : isTypeContext kind children) :
    policy kind = .typeSyntax ∨ kind = .heritageClause ∧
      children.any (isToken .implementsKeyword) := by
  cases kind with
  | heritageClause => exact .inr ⟨rfl, h⟩
  | _ => first
    | exact .inl rfl
    | cases h

/-- A clause with `implements` is never kept. -/
theorem Meets.not_isImplements {task' : Task} {parent : Node} (hregular : parent.Regular text)
    (htask : task.Belongs parent) {pieces pieces' : List Inserted}
    (h : Meets s task parent child (.keep task' pieces pieces')) : child.isImplements = false := by
  obtain ⟨kind, span, marks, children, index, rfl, hpolicy, hchild, haction⟩ := h
  rw [Bool.eq_false_iff]
  intro himplements
  obtain ⟨hheritage, htoken⟩ := Bool.and_eq_true_iff.1 himplements
  have hclass := hregular.branch.2.1 ⟨child, List.mem_of_getElem? hchild, hheritage⟩
  obtain ⟨span', marks', children', rfl⟩ := exists_of_isKind hheritage
  have hremoved : policy kind = .classBody → kind ≠ .variableDeclaration → task.isCommon →
      False := by
    intro hbody hkind hcommon
    rw [action_eq _ hchild (by simp [hbody, Policy.holdsList]), verdict_of_isCommon hkind hcommon
      rfl rfl] at haction
    simp [childVerdict, hbody, classAction, label, htoken] at haction
  cases kind with
  | classDeclaration | classExpression =>
    exact hremoved rfl (by decide) (htask.isCommon rfl (by simp) (by simp) (by simp))
  | interfaceDeclaration => exact hpolicy rfl
  | _ => cases hclass

theorem Visits.not_isImplements (hregular : root.Regular text) (hroot : root.isImplements = false)
    (h : Visits s .none root task node) : node.isImplements = false := by
  cases h with
  | here => exact hroot
  | child hparent hmeets =>
    exact hmeets.not_isImplements (hregular.of_mem hparent.mem_descendants)
      (hparent.belongs hregular)

section Ways

variable {text : String} {root : Node} {task : Task} (hregular : root.Regular text)
  (hroot : root.isImplements = false)

include hregular hroot

theorem Visits.not_isTypeContext (h : Visits s .none root task (branch kind span marks children))
    (hpolicy : policy kind ≠ .typeSyntax) : isTypeContext kind children = false := by
  rw [Bool.eq_false_iff]
  intro hcontext
  rcases policy_of_isTypeContext hcontext with hsyntax | ⟨rfl, hany⟩
  · exact hpolicy hsyntax
  · have hother := h.not_isImplements hregular hroot
    simp [isImplements, isKind, kind?, hasToken, Node.children, hany] at hother

theorem Visits.uses_child {action : Action} (h : Visits s .none root task node)
    (hmeets : Meets s task node child action) :
    (uses source false child ⊆ uses source false node) ∨ node.Overlooks child := by
  obtain ⟨kind, span, marks, children, index, rfl, hpolicy, hchild, -⟩ := hmeets
  have hcontext := h.not_isTypeContext hregular hroot hpolicy
  obtain ⟨before, after, rfl⟩ := List.append_of_mem (List.mem_of_getElem? hchild)
  refine (Erasure.uses_child source false kind span marks before child after).imp ?_
    overlooks_of_position
  rw [hcontext]
  exact id

theorem Visits.uses_subset (h : Visits s .none root task node) :
    (uses source false node ⊆ uses source false root) ∨ root.Overlooked node := by
  induction h with
  | here => exact .inl fun _ huse => huse
  | child hparent hmeets ih =>
    rcases ih with hsubset | hoverlooked
    · refine (hparent.uses_child hregular hroot hmeets).imp
        (fun hchild use huse => hsubset (hchild huse)) fun hoverlooks => ?_
      exact ⟨_, hparent.mem_descendants, _, hoverlooks, mem_descendants_self _⟩
    · exact .inr (hoverlooked.below (child_mem_descendants hmeets.mem))

end Ways

/-! ## Names that stay in imports -/

/-- The child is a decorator, or a token that is no name. -/
def IsNameless (child : Node) : Prop :=
  child.isKind .decorator ∨ child.isLeaf ∧ child.isToken .identifier = false

theorem isNameless_of_isToken {kind : TokenKind} (h : child.isToken kind)
    (hkind : kind ≠ .identifier) : IsNameless child := by
  have htoken : child.token? = some kind := beq_iff_eq.1 h
  exact .inr ⟨isLeaf_of_isToken h, by simpa [isToken, htoken] using hkind⟩

theorem isNameless_of_isClassFront (h : child.isClassFront) : IsNameless child := by
  rcases Bool.or_eq_true_iff.1 h with hdecorator | hword
  · exact .inl hdecorator
  · obtain ⟨kind, htoken, hkind⟩ := (Option.any_eq_true _ _).1 hword
    refine isNameless_of_isToken (beq_iff_eq.2 htoken) ?_
    rintro rfl
    cases hkind

theorem IsNameless.label_ne (h : IsNameless child) : child.label ≠ .token .identifier := by
  intro hlabel
  rcases h with h | ⟨-, h⟩ <;> cases child <;> simp_all [label, isKind, kind?, isToken, token?]

/-- What comes before the reference of an import with an equals sign has no name, except that it is
the declared name, with nothing in front that has one. -/
theorem importEquals_child
    (hshape : NodeKind.importEqualsDeclaration.HasShape text (before ++ child :: after))
    (hlater : ∃ later ∈ after, later.isToken .semicolon = false) :
    IsNameless child ∨ child.isLeaf ∧ ∀ old ∈ before, IsNameless old := by
  obtain ⟨front, word, modifier, name, sign, value, stop, hchildren, hfront, hword,
    hmodifier, hname, hsign, -, hstop⟩ := hshape
  have hnameless : ∀ part ∈ front ++ word :: modifier, IsNameless part := by
    intro part hpart
    rcases List.mem_append.1 hpart with hpart | hpart
    · exact isNameless_of_isClassFront (hfront part hpart)
    · rcases List.mem_cons.1 hpart with rfl | hpart
      · exact isNameless_of_isToken hword nofun
      · exact isNameless_of_isToken (hmodifier part hpart) nofun
  have hstops : ∀ later ∈ stop, later.isToken .semicolon ≠ false := fun later hmem => by
    simp [hstop later hmem]
  obtain ⟨later, hmem, hother⟩ := hlater
  generalize front ++ word :: modifier = head at hchildren hnameless
  rcases List.append_eq_append_iff.1 hchildren with ⟨more, rfl, hrest⟩ | ⟨more, rfl, hrest⟩
  · cases more with
    | nil =>
      obtain ⟨rfl, rfl⟩ := List.cons.inj hrest
      exact .inr ⟨isLeaf_of_isToken hname, by simpa using hnameless⟩
    | cons first more =>
      obtain ⟨rfl, -⟩ := List.cons.inj hrest
      exact .inl (hnameless child (by simp))
  · match more, hrest with
    | [], hrest =>
      obtain ⟨rfl, -⟩ := List.cons.inj hrest
      exact .inr ⟨isLeaf_of_isToken hname, by simpa using hnameless⟩
    | [_], hrest =>
      obtain ⟨-, hrest⟩ := List.cons.inj hrest
      obtain ⟨rfl, -⟩ := List.cons.inj hrest
      exact .inl (isNameless_of_isToken hsign nofun)
    | [_, _], hrest =>
      obtain ⟨-, hrest⟩ := List.cons.inj hrest
      obtain ⟨-, hrest⟩ := List.cons.inj hrest
      obtain ⟨-, rfl⟩ := List.cons.inj hrest
      exact absurd hother (hstops later hmem)
    | _ :: _ :: _ :: more, hrest =>
      obtain ⟨-, hrest⟩ := List.cons.inj hrest
      obtain ⟨-, hrest⟩ := List.cons.inj hrest
      obtain ⟨-, rfl⟩ := List.cons.inj hrest
      exact absurd hother (hstops later (by simp [hmem]))

theorem isKind_visit :
    (visit s task w node).node.isKind kind = node.isKind kind := by
  rw [isKind, isKind, kind?_of_label_eq (label_visit s task w node).1]

theorem mem_descendants_visit_leaf (hleaf : child.isLeaf)
    (h : part ∈ (visit s task w child).node.descendants) : part = (visit s task w child).node := by
  have hkind : (visit s task w child).node.kind? = child.kind? :=
    kind?_of_label_eq (label_visit s task w child).1
  rw [Option.isNone_iff_eq_none.1 hleaf] at hkind
  generalize (visit s task w child).node = new at hkind h
  cases new with
  | branch kind span marks children => cases hkind
  | _ => simpa [descendants] using h

theorem find?_name {name : Node} {front back : List Node}
    (hfront : ∀ new ∈ front, new.label ≠ .token .identifier) (hname : name.isToken .identifier) :
    (front ++ name :: back).find? (isToken .identifier) = some name := by
  have hnone : front.find? (isToken .identifier) = none := by
    rw [List.find?_eq_none]
    intro new hnew htoken
    refine hfront new hnew ?_
    cases new <;> simp_all [isToken, token?, label]
  rw [List.find?_append, hnone, Option.none_or, List.find?_cons_of_pos hname]

/-- The uses of a node that a visit reaches are uses of the tree, unless the names that are left of
it are in imports. -/
theorem Reaches.uses_or_spares {w' : Walk} (hregular : root.Regular text)
    (hroot : root.isImplements = false) (h : Reaches s .none w root task w' node) :
    (uses source false node ⊆ uses source false root) ∨
      ∀ part ∈ (visit s task w' node).node.descendants, part.isToken .identifier →
        ∃ holder ∈ (visit s .none w root).node.descendants, holder.Spares part := by
  induction h with
  | here => exact .inl fun _ huse => huse
  | @child task' task'' w' w'' parent child hparent hhands ih =>
    have hmem := hhands.mem
    have hbelow : ∀ part ∈ (visit s task'' w'' child).node.descendants,
        part ∈ (visit s task' w' parent).node.descendants :=
      fun part hpart => mem_descendants_iff.2 (.inr ⟨_, hmem, hpart⟩)
    rcases ih with hsubset | hspared
    · cases hhands with
      | @intro kind span marks before after _ _ _ pieces pieces' front back hpolicy _ hchildren
          hfront =>
        have huses := uses_child source false kind span marks before child after
        rw [hparent.visits.not_isTypeContext hregular hroot hpolicy] at huses
        rcases huses with hchild | hposition
        · exact .inl fun use huse => hsubset (hchild huse)
        refine .inr fun part hpart hname => ⟨_, hparent.mem_descendants, ?_⟩
        rcases hposition with rfl | ⟨rfl, hlater⟩
        · exact .inl ⟨isKind_visit, hbelow part hpart⟩
        refine .inr ⟨isKind_visit, ?_⟩
        have hshape := (hregular.of_mem hparent.visits.mem_descendants).branch.1 nofun
        have hlabel := (label_visit s task'' w'' child).1
        rcases importEquals_child hshape hlater with (hdecorator | ⟨hleaf, hother⟩) |
          ⟨hleaf, hbefore⟩
        · exact .inr ⟨_, hmem, isKind_visit.trans hdecorator, hpart⟩
        · obtain rfl := mem_descendants_visit_leaf hleaf hpart
          rw [isToken_of_label_eq hlabel, hother] at hname
          cases hname
        · obtain rfl := mem_descendants_visit_leaf hleaf hpart
          refine .inl ?_
          rw [hchildren]
          refine find?_name (fun new hnew => ?_) hname
          rcases hfront new hnew with hinserted | ⟨old, hold, hsame⟩
          · rw [hinserted]
            exact nofun
          · rw [hsame]
            exact (hbefore old hold).label_ne
    · exact .inr fun part hpart => hspared part (hbelow part hpart)

theorem element_mem_uses (h : node.isElement) : .element ∈ uses source inType node := by
  cases node with
  | leaf token | inserted piece => cases h
  | branch kind span marks children =>
    have hkind : kind = .jsxElement ∨ kind = .jsxSelfClosingElement ∨ kind = .jsxFragment := by
      simpa [isElement, isKind, kind?, or_assoc] using h
    have hnone : kind ≠ .importDeclaration ∧ kind ≠ .importEqualsDeclaration := by
      rcases hkind with rfl | rfl | rfl <;> decide
    rw [uses_branch hnone.1 hnone.2]
    refine List.mem_append_left _ ?_
    rcases hkind with rfl | rfl | rfl <;> exact List.mem_singleton_self _

/-! ## Bindings that are dropped -/

/-- The walk drops an import of this name that is not marked as one of a type: with the whole
statement, which is not declared either, with all names in braces, or alone. -/
inductive Drops (s : Setting) (root : Node) (name : String) : Prop where
  | statement {task : Task} {parent statement binding : Node} : Visits s .none root task parent →
    Meets s task parent statement (.remove .unit) → statement.isKind .importDeclaration →
    statement.hasToken .declareKeyword = false → isTypeImport statement = false →
    binding ∈ importBindings statement → bindingName? s.source binding = some name →
    isMarkedType binding = false → Drops s root name
  | named {task : Task} {clause named binding : Node} : Visits s .none root task clause →
    clause.isKind .importClause → Meets s task clause named (.remove .unit) →
    named.isKind .namedImports → binding ∈ named.children →
    binding.isKind .importSpecifier → bindingName? s.source binding = some name →
    isMarkedType binding = false → Drops s root name
  | alone {task : Task} {list binding : Node} : Visits s .none root task list →
    (list.isKind .importClause ∨ list.isKind .namedImports) →
    Meets s task list binding (.remove .unit) → bindingName? s.source binding = some name →
    isMarkedType binding = false → Drops s root name
  | equals {task : Task} {parent statement : Node} : Visits s .none root task parent →
    Meets s task parent statement (.remove .unit) →
    statement.isKind .importEqualsDeclaration →
    statement.hasToken .declareKeyword = false → statement.hasToken .typeKeyword = false →
    declaredName? s.source statement = some name → Drops s root name

/-- What goes as a unit goes by the rule for its parent, tasks apart. -/
theorem childVerdict_of_remove (h : (verdict s scope index child).action = .remove .unit) :
    (childVerdict s scope index child).action = .remove .unit := by
  unfold verdict at h
  split at h
  · cases h
  split at h
  · cases h
  split at h
  · dsimp only at h
    split at h <;> cases h
  split at h
  · dsimp only at h
    split at h <;> cases h
  split at h
  · cases h
  split at h
  · unfold functionAction replaceToken at h
    dsimp only at h
    split at h <;> cases h
  · dsimp only at h
    split at h
    · cases haction : (childVerdict s scope index child).action <;>
        simp_all [Action.followedBy]
    · exact h
  · exact h

theorem Meets.remove_unit (h : Meets s task node child (.remove .unit))
    (hcomma : child.isToken .comma = false) : ∃ kind span marks children, ∃ index : Nat,
      node = branch kind span marks children ∧
        (childVerdict s ⟨kind, span, task, children⟩ index child).action = .remove .unit := by
  obtain ⟨kind, span, marks, children, index, rfl, hverdict | ⟨hgone, -⟩⟩ := h.verdict
  · exact ⟨kind, span, marks, children, index, rfl, childVerdict_of_remove hverdict.symm⟩
  · rw [hcomma] at hgone
    cases hgone

theorem importAction_of_remove (h : importAction s statement = .remove .unit)
    (htype : isTypeImport statement = false) (hbinding : binding ∈ importBindings statement) :
    dropsBinding s binding := by
  unfold importAction at h
  dsimp only at h
  rw [if_neg (by simp [htype])] at h
  split at h
  · cases h
  · split at h
    · rename_i hall
      exact List.all_eq_true.1 hall binding hbinding
    · cases h

theorem dropsBinding_eq_false (h : bindingName? s.source child = none) :
    dropsBinding s child = false := by
  simp [dropsBinding, h]

theorem label_of_bindingName? (h : bindingName? source child = some name) :
    child.label = .token .identifier ∨ child.label = .branch .namespaceImport ∨
      child.label = .branch .importSpecifier := by
  unfold bindingName? at h
  split at h
  · exact .inl ‹_›
  · exact .inr (.inl ‹_›)
  · exact .inr (.inr ‹_›)
  · cases h

theorem not_isToken_of_isKind (h : child.isKind kind) (token : TokenKind) :
    child.isToken token = false := by
  obtain ⟨span, marks, children, rfl⟩ := exists_of_isKind h
  rfl

/-- The statement is an import of one of the two forms. -/
def isImport (statement : Node) : Bool :=
  statement.isKind .importDeclaration || statement.isKind .importEqualsDeclaration

/-- An import that goes as a unit goes as a statement. -/
theorem statementVerdict_of_childVerdict
    (h : (childVerdict s scope index statement).action = .remove .unit)
    (hkind : isImport statement) :
    (statementVerdict s scope statement).action = .remove .unit := by
  have hlabel : statement.label = .branch .importDeclaration ∨
      statement.label = .branch .importEqualsDeclaration := by
    cases statement <;> simp_all [isImport, isKind, kind?, label]
  have hname : bindingName? s.source statement = none := by
    rcases hlabel with hlabel | hlabel <;> simp [bindingName?, hlabel]
  have hother : statement.token? = none ∧ statement.isKind .namedImports = false ∧
      statement.isKind .parameter = false ∧ statement.isKind .exportSpecifier = false := by
    cases statement <;> simp_all [label, token?, isKind, kind?]
    rcases hlabel with rfl | rfl <;> decide
  unfold childVerdict at h
  dsimp only at h
  split at h
  -- The rule for statements is the one that counts.
  · simpa [hother.1] using h
  · rcases hlabel with hlabel | hlabel <;> simp [classAction, hlabel, Action.stay] at h
  · simp [hother.1] at h
  · simp [isToken, hother.1] at h
  · simp [hother.2.2.1] at h
  · split at h
    · unfold operandAction at h
      repeat' split at h
      all_goals cases h
    · cases h
  · split at h <;> cases h
  · simp [dropsBinding_eq_false hname, hother.2.1] at h
  · split at h
    · simp [dropsBinding_eq_false hname] at h
    · simp [dropsSpecifier, hother.2.2.2] at h
    · cases h
  · simp [isToken, hother.1] at h
  · split at h <;> cases h
  · cases h
  · cases h
  · cases h

theorem childVerdict_importClause (hkind : scope.kind = .importClause)
    (h : (childVerdict s scope index child).action = .remove .unit) :
    (if child.isKind .namedImports then dropsAllBindings s child else dropsBinding s child) =
      true := by
  unfold childVerdict at h
  rw [hkind] at h
  dsimp only [policy] at h
  generalize (if child.isKind .namedImports then dropsAllBindings s child
    else dropsBinding s child) = drops at h ⊢
  split at h
  · rename_i hcondition
    exact (Bool.and_eq_true_iff.1 hcondition).2
  · cases h

theorem childVerdict_namedImports (hkind : scope.kind = .namedImports)
    (hspecifier : child.isKind .exportSpecifier = false)
    (h : (childVerdict s scope index child).action = .remove .unit) :
    dropsBinding s child := by
  unfold childVerdict at h
  rw [hkind] at h
  dsimp only [policy] at h
  split at h
  · dsimp only at h
    split at h
    · assumption
    · cases h
  · simp [dropsSpecifier, hspecifier] at h
  · cases h

theorem isTypeOnlyBinding_of_dropsBinding (h : dropsBinding s binding)
    (hname : bindingName? s.source binding = some name) (hmarked : isMarkedType binding = false) :
    s.usage.isTypeOnlyBinding name := by
  obtain ⟨name', hname', hcondition⟩ := (Option.any_eq_true _ _).1 h
  obtain rfl : name = name' := Option.some.inj (hname.symm.trans hname')
  rw [hmarked, Bool.false_or] at hcondition
  exact (Bool.and_eq_true_iff.1 hcondition).2

/-- The name of a dropped import is used by types only. -/
theorem Drops.isTypeOnlyBinding (h : Drops s root name) :
    s.usage.isTypeOnlyBinding name := by
  cases h with
  | @statement _ _ statement _ hvisits hmeets hkind hdeclare htype hbinding hname hmarked =>
    obtain ⟨kind, span, marks, children, index, rfl, hverdict⟩ :=
      hmeets.remove_unit (not_isToken_of_isKind hkind .comma)
    have hgone := statementVerdict_of_childVerdict hverdict (by simp [isImport, hkind])
    have haction : importAction s statement = .remove .unit := by
      simpa [statementVerdict, beq_iff_eq.1 hkind, hdeclare] using hgone
    exact isTypeOnlyBinding_of_dropsBinding (importAction_of_remove haction htype hbinding) hname
      hmarked
  | named hvisits hclause hmeets hnamed hbinding hspecifier hname hmarked =>
    obtain ⟨kind, span, marks, children, index, rfl, hverdict⟩ :=
      hmeets.remove_unit (not_isToken_of_isKind hnamed .comma)
    have hall := childVerdict_importClause (by simpa [isKind, kind?] using hclause) hverdict
    rw [if_pos hnamed] at hall
    have hdrops := List.all_eq_true.1 (Bool.and_eq_true_iff.1 hall).2 _
      (List.mem_filter.2 ⟨hbinding, hspecifier⟩)
    exact isTypeOnlyBinding_of_dropsBinding hdrops hname hmarked
  | @alone task list binding hvisits hlist hmeets hname hmarked =>
    have hother : binding.isToken .comma = false ∧ binding.isKind .namedImports = false ∧
        binding.isKind .exportSpecifier = false := by
      rcases label_of_bindingName? hname with h | h | h <;> cases binding <;>
        simp_all [label, isToken, token?, isKind, kind?]
    obtain ⟨kind, span, marks, children, index, rfl, hverdict⟩ := hmeets.remove_unit hother.1
    refine isTypeOnlyBinding_of_dropsBinding ?_ hname hmarked
    rcases hlist with hlist | hlist
    · have hone := childVerdict_importClause (by simpa [isKind, kind?] using hlist) hverdict
      rwa [hother.2.1, if_neg Bool.false_ne_true] at hone
    · exact childVerdict_namedImports (by simpa [isKind, kind?] using hlist) hother.2.2 hverdict
  | equals hvisits hmeets hkind hdeclare htype hname =>
    obtain ⟨kind, span, marks, children, index, rfl, hverdict⟩ :=
      hmeets.remove_unit (not_isToken_of_isKind hkind .comma)
    have hgone := statementVerdict_of_childVerdict hverdict (by simp [isImport, hkind])
    simp only [statementVerdict, beq_iff_eq.1 hkind, hdeclare, htype, hname, Bool.false_eq_true,
      if_false, Option.getD_some] at hgone
    split at hgone
    · rename_i honly
      exact (Bool.and_eq_true_iff.1 honly).2
    · cases hgone

theorem Drops.not_used {options : Options} (h : Drops (.ofTree options source root) root name) :
    .value name ∉ uses source false root ∧
      (.element ∈ uses source false root → options.elementName ≠ name) := by
  have hunused : name ∉ (Usage.ofTree options source root).valueNames := by
    have honly := (Bool.and_eq_true_iff.1 h.isTypeOnlyBinding).2
    simpa [Setting.ofTree] using honly
  refine ⟨fun huse => hunused (List.mem_filterMap.2 ⟨_, huse, rfl⟩), fun huse helement => ?_⟩
  exact hunused (List.mem_filterMap.2 ⟨_, huse, congrArg some helement⟩)

/-- The first statement of a file is an import that is dropped, and this name with it. -/
def dropsFirst (s : Setting) (name : String) : Node → Bool
  | branch kind span _ (statement :: rest) =>
    let scope : Scope := ⟨kind, span, .none, statement :: rest⟩
    policy kind != .typeSyntax && (actions scope (verdicts s scope))[0]? == some (.remove .unit) &&
      statement.isKind .importDeclaration && !statement.hasToken .declareKeyword &&
      !isTypeImport statement && (importBindings statement).any fun binding =>
        bindingName? s.source binding == some name && !isMarkedType binding
  | _ => false

theorem drops_of_dropsFirst (h : dropsFirst s name root) : Drops s root name := by
  unfold dropsFirst at h
  split at h
  · rename_i kind span marks statement rest
    simp only [Bool.and_eq_true, bne_iff_ne, beq_iff_eq, Bool.not_eq_true', List.any_eq_true] at h
    obtain ⟨⟨⟨⟨⟨hpolicy, haction⟩, hkind⟩, hdeclare⟩, htype⟩,
      binding, hbinding, hname, hmarked⟩ := h
    exact .statement .here ⟨kind, span, marks, _, 0, rfl, hpolicy, rfl, haction⟩ hkind
      hdeclare htype hbinding hname hmarked
  · cases h

/-! ## Names that are not used -/

section Unused

variable {text name : String} {root : Node} (hregular : root.Regular text)
  (hroot : root.isImplements = false) (hunused : .value name ∉ uses source false root)

include hregular hroot hunused

/-- A name that the file does not use when it runs is left in imports and in type syntax only. -/
theorem mem_visit_of_unused (hpart : part ∈ (visit s .none w root).node.descendants)
    (hidentifier : part.isToken .identifier) (hname : part.text source = name) :
    (∃ holder ∈ (visit s .none w root).node.descendants, holder.Spares part) ∨
      ∃ kept ∈ (visit s .none w root).node.descendants, kept.isTypeSyntax ∧
        part ∈ kept.descendants ∧ findingAt kept (.typeSyntaxKept (excerpt (kept.text s.source))) ∈
          (visit s .none w root).walk.findings := by
  rcases exists_reaches s root .none w part hpart with hinserted | ⟨task, w', old, hreaches, hold⟩
  · cases part with
    | inserted piece => cases hidentifier
    | leaf token | branch kind span marks children => cases hinserted
  rcases hold with rfl | ⟨htype, hbelow⟩
  · obtain ⟨hlabel, hspan⟩ := label_visit s task w' old
    have huse : .value name ∈ uses source false old :=
      uses_name ((isToken_of_label_eq hlabel _).symm.trans hidentifier)
        (by rw [← hname, Node.text, Node.text, hspan])
    rcases hreaches.uses_or_spares hregular hroot with huses | hspares
    · exact absurd (huses huse) hunused
    · exact .inl (hspares _ (mem_descendants_self _) hidentifier)
  · exact .inr (hreaches.told htype hbelow)

/-- In the initializers of an enum that is put into plainer words, such a name is only where uses
are not looked for, or behind `implements`. -/
theorem Visits.initializer_of_unused {enum member initializer : Node} {action : Action}
    {keys : List String} (hvisits : Visits s .none root task node)
    (hmeets : Meets s task node enum action) (henum : enum.isKind .enumDeclaration)
    (hmember : member ∈ enum.children) (hkind : member.isKind .enumMember)
    (hinitializer : initializer ∈ member.children)
    (hmovable : isMovable source keys initializer) (hpart : part ∈ initializer.descendants)
    (hidentifier : part.isToken .identifier) (hname : part.text source = name) :
    root.Overlooked part ∨
      ∃ clause ∈ initializer.descendants, clause.isImplements ∧ part ∈ clause.descendants := by
  have hbelow : initializer ∈ enum.descendants :=
    mem_descendants_of_mem_children hinitializer
      (child_mem_descendants hmember)
  have hinEnum : part ∈ enum.descendants := descendants_subset hbelow hpart
  have huses : (uses source false enum ⊆ uses source false root) ∨
      root.Overlooked part := by
    rcases hvisits.uses_subset hregular hroot with hnode | hoverlooked
    · refine (hvisits.uses_child hregular hroot hmeets).imp
        (fun henum use huse => hnode (henum huse)) fun hoverlooks => ?_
      exact ⟨_, hvisits.mem_descendants, _, hoverlooks, hinEnum⟩
    · exact .inr (hoverlooked.below (mem_descendants_iff.2 (.inr ⟨enum, hmeets.mem, hinEnum⟩)))
  rcases huses with huses | hoverlooked
  · rcases uses_descendant source initializer false part hpart with
      hoverlooked | hsubset | ⟨⟨holder, hholder, hcontext, hheld⟩, -⟩
    · refine .inl (hoverlooked.mono (descendants_subset ?_ hbelow))
      exact mem_descendants_of_mem_children hmeets.mem hvisits.mem_descendants
    · refine absurd (huses (uses_initializer henum hmember hkind hinitializer ?_)) hunused
      exact hsubset (uses_name hidentifier hname)
    · exact .inr ⟨holder, hholder, isImplements_of_isMovable hmovable hholder hcontext, hheld⟩
  · exact .inl hoverlooked

end Unused

end Erasure

open Erasure

variable {variant : Variant} {file text : String} {tree : SyntaxTree}

/-- An import that is not marked as one of types is dropped only if the file does without it when it
runs. Its name is left in imports only, as the name that an import with an equals sign declares, in
the decorators of such an import, and in type syntax that is told about. An enum that is put into
plainer words has it in no initializer, unless it stands there behind `implements` or where uses
are not looked for. And it is not the name that elements call, unless all of them are where uses are
not looked for. -/
theorem SyntaxTree.erase_keeps_used_imports
    (hparse : SyntaxTree.parseAs variant file text = .ok tree) {options : Options} {name : String}
    (hdrops : Drops (.ofTree options text tree.root) tree.root name) :
    (∀ part ∈ (tree.erase options).tree.root.descendants, part.isToken .identifier = true →
      part.text text = name →
      (∃ holder ∈ (tree.erase options).tree.root.descendants, holder.Spares part) ∨
      ∃ kept ∈ (tree.erase options).tree.root.descendants,
        kept.isTypeSyntax = true ∧ part ∈ kept.descendants ∧
          findingAt kept (.typeSyntaxKept (excerpt (kept.text text))) ∈
            (tree.erase options).findings) ∧
    (∀ task parent enum piece, Visits (.ofTree options text tree.root) .none tree.root task parent →
      Meets (.ofTree options text tree.root) task parent enum (.replace piece) →
      piece.lowered = true →
      ∃ owner exported values indent unit,
        piece.text = enumText owner exported values indent unit ∧
        ∀ key value, (key, .computed value) ∈ values →
          ∃ initializer ∈ enum.descendants, value = initializer.text text ∧
            ∀ part ∈ initializer.descendants, part.isToken .identifier = true →
              part.text text = name → tree.root.Overlooked part ∨
                ∃ clause ∈ initializer.descendants,
                  clause.isImplements = true ∧ part ∈ clause.descendants) ∧
    (options.elementName = name → ∀ element ∈ tree.root.descendants, element.isElement = true →
      tree.root.Overlooked element) := by
  obtain ⟨rfl, -, statements, token, hroot, -⟩ := SyntaxTree.parseAs_tiles hparse
  have hregular := SyntaxTree.parseAs_regular hparse
  have hplain : tree.root.isImplements = false := by rw [hroot]; rfl
  obtain ⟨hunused, helement⟩ := hdrops.not_used
  refine ⟨fun part hpart hidentifier hname => ?_,
    fun task parent enum piece hvisits hmeets hlowered => ?_, fun hname element hmem hkind => ?_⟩
  · exact mem_visit_of_unused hregular hplain hunused hpart hidentifier hname
  · obtain ⟨henum, indent, unit, htext⟩ := hmeets.enumText? hlowered
    obtain ⟨owner, values, hvalues, htext⟩ := enumText?_eq_some htext
    refine ⟨owner, _, values, indent, unit, htext, fun key value hmem => ?_⟩
    obtain ⟨member, hmember, hkind, initializer, hinitializer, hvalue, hmovable⟩ :=
      hvalues.computed hmem
    have hbelow : initializer ∈ enum.descendants :=
      mem_descendants_of_mem_children hinitializer
        (child_mem_descendants hmember)
    exact ⟨initializer, hbelow, hvalue, fun part hpart hidentifier hname =>
      hvisits.initializer_of_unused hregular hplain hunused hmeets henum hmember hkind hinitializer
        hmovable hpart hidentifier hname⟩
  · rcases uses_descendant tree.source tree.root false element hmem with
      hoverlooked | huses | ⟨-, huses⟩
    · exact hoverlooked
    iterate 2 exact absurd hname (helement (huses (element_mem_uses hkind)))

/-- An import is dropped whose name is left in an interface that stays. -/
theorem SyntaxTree.erase_keeps_used_imports_interface :
    ∃ tree, SyntaxTree.parseAs .standard "a.ts"
        "import \x7bA\x7d from \"x\"; let a: A; if (a) interface I extends A \x7b\x7d" = .ok tree ∧
      Drops (.ofTree {}
        "import \x7bA\x7d from \"x\"; let a: A; if (a) interface I extends A \x7b\x7d"
        tree.root) tree.root "A" ∧
      ∀ part ∈ (tree.erase {}).tree.root.descendants, part.isToken .identifier = true →
        part.text "import \x7bA\x7d from \"x\"; let a: A; if (a) interface I extends A \x7b\x7d" =
          "A" →
        (∃ holder ∈ (tree.erase {}).tree.root.descendants, holder.Spares part) ∨
        ∃ kept ∈ (tree.erase {}).tree.root.descendants,
          kept.isTypeSyntax = true ∧ part ∈ kept.descendants ∧
            findingAt kept (.typeSyntaxKept (excerpt (kept.text
              "import \x7bA\x7d from \"x\"; let a: A; if (a) interface I extends A \x7b\x7d"))) ∈
              (tree.erase {}).findings :=
  (SyntaxTree.exists_checked (by decide +kernel)).imp fun tree
    (htree : _ ∧ dropsFirst (.ofTree {} _ tree.root) "A" tree.root = true) =>
      have hdrops := drops_of_dropsFirst htree.2
      ⟨htree.1, hdrops, (SyntaxTree.erase_keeps_used_imports htree.1 hdrops).1⟩

/-- An import is dropped although the text of an enum has its name, behind `implements`. -/
theorem SyntaxTree.erase_drops_used_import :
    ∃ tree, SyntaxTree.parseAs .standard "a.ts"
        "import \x7bI\x7d from \"x\"; enum E \x7b A = f(class implements I \x7b\x7d) \x7d" =
          .ok tree ∧
      Drops (.ofTree {}
        "import \x7bI\x7d from \"x\"; enum E \x7b A = f(class implements I \x7b\x7d) \x7d"
        tree.root) tree.root "I" ∧
      (tree.erase {}).tree.text = "var E;\n(function (E) \x7b\n    " ++
        "E[E[\"A\"] = f(class implements I \x7b\x7d)] = \"A\";\n\x7d)(E || (E = \x7b\x7d));" :=
  (SyntaxTree.exists_checked (by decide +kernel)).imp fun tree
    (htree : _ ∧ dropsFirst (.ofTree {} _ tree.root) "I" tree.root = true ∧ _) =>
      ⟨htree.1, drops_of_dropsFirst htree.2.1, htree.2.2⟩

end Untype
