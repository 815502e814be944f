-- Every child of a node has one action: its verdict, but for the commas of a
-- list that go with the elements beside them.
import Mathlib.Data.List.Forall2
import Untype.Erasure.Walk

namespace Untype.Erasure

variable {action : Action} {pairs : List (Bool × Action)} {children : List Node} {index : Nat}
  {child : Node} {plan : FieldPlan}

/-! ## Commas -/

/-- The second action stands for the first one: it is the same, or the child is a comma that
goes. -/
def StandsFor (old new : Bool × Action) : Prop :=
  new.1 = old.1 ∧ (new.2 = old.2 ∨ old.1 ∧ new.2 = .remove .unit)

theorem StandsFor.refl (pair : Bool × Action) : StandsFor pair pair := ⟨rfl, .inl rfl⟩

theorem StandsFor.of_gone {new : Bool × Action} (h : StandsFor (true, .remove .unit) new) :
    StandsFor (true, action) new := by
  obtain ⟨hcomma, hsame | ⟨-, hgone⟩⟩ := h
  · exact ⟨hcomma, .inr ⟨rfl, hsame⟩⟩
  · exact ⟨hcomma, .inr ⟨rfl, hgone⟩⟩

theorem standsFor_toList_append (previous : Option (Bool × Action)) {others : List (Bool × Action)}
    (h : List.Forall₂ StandsFor pairs others) :
    List.Forall₂ StandsFor (previous.toList ++ pairs) (previous.toList ++ others) := by
  cases previous with
  | none => exact h
  | some pair => exact .cons (.refl pair) h

theorem dropCommas_standsFor (previous : Option (Bool × Action)) (pairs : List (Bool × Action)) :
    List.Forall₂ StandsFor (previous.toList ++ pairs) (dropCommas previous pairs) := by
  fun_induction dropCommas previous pairs with
  | case1 previous => simpa using standsFor_toList_append previous .nil
  | case2 isComma action rest helement task before after ih =>
    exact .cons ⟨rfl, .inr ⟨rfl, rfl⟩⟩ ih
  | case3 previous isComma action helement hprevious task before after rest ih =>
    refine standsFor_toList_append previous (.cons (.refl _) ?_)
    obtain ⟨new, others, hnew, hothers, heq⟩ := List.forall₂_cons_left_iff.1 ih
    rw [heq]
    exact .cons hnew.of_gone hothers
  | case4 previous isComma action rest helement hprevious hrest ih =>
    exact standsFor_toList_append previous ih
  | case5 previous isComma action rest helement ih => exact standsFor_toList_append previous ih

theorem withoutCommas_length (children : List Node) (actions : List Action) :
    (withoutCommas children actions).length = min children.length actions.length := by
  have hdrop := dropCommas_standsFor none ((children.map (Node.isToken .comma)).zip actions)
  simpa [withoutCommas] using hdrop.length_eq.symm

theorem withoutCommas_getElem? {actions : List Action} (hchild : children[index]? = some child)
    (haction : actions[index]? = some action) :
    ∃ new, (withoutCommas children actions)[index]? = some new ∧
      (new = action ∨ child.isToken .comma ∧ new = .remove .unit) := by
  have hdrop := dropCommas_standsFor none ((children.map (Node.isToken .comma)).zip actions)
  simp only [Option.toList_none, List.nil_append] at hdrop
  have hpair : ((children.map (Node.isToken .comma)).zip actions)[index]? =
      some (child.isToken .comma, action) := by
    simp [List.zip, List.getElem?_zipWith, hchild, haction]
  obtain ⟨hindex, hget⟩ := List.getElem?_eq_some_iff.1 hpair
  have hlength := lt_of_lt_of_eq hindex hdrop.length_eq
  obtain ⟨-, hnew⟩ := hdrop.get hindex hlength
  refine ⟨(List.get _ ⟨index, hlength⟩).2, ?_, by simpa [hget] using hnew⟩
  simp [withoutCommas, List.getElem?_eq_getElem hlength]

theorem dropCommas_of_keep (previous : Option (Bool × Action))
    (h : ∀ pair ∈ pairs, pair.2 ≠ .remove .unit) :
    dropCommas previous pairs = previous.toList ++ pairs := by
  induction pairs generalizing previous with
  | nil => simp [dropCommas]
  | cons pair pairs ih =>
    rw [List.forall_mem_cons] at h
    unfold dropCommas
    rw [if_neg (by simp [h.1]), ih _ h.2]
    rfl

theorem withoutCommas_of_keep {actions : List Action} (hlength : children.length = actions.length)
    (h : ∀ action ∈ actions, action ≠ .remove .unit) :
    withoutCommas children actions = actions := by
  rw [withoutCommas, dropCommas_of_keep _ fun pair hpair => h pair.2 (List.of_mem_zip hpair).2]
  exact List.map_snd_zip (by simp [hlength])

/-! ## All actions -/

/-- What happens to the children of a node, given what is known about them. -/
abbrev actionsOf (s : Setting) (scope : Scope) : List Action := actions scope (verdicts s scope)

variable {s : Setting} {scope : Scope}

/-- The action for a child is its verdict, unless a comma goes. -/
theorem actions_getElem? (hchild : scope.children[index]? = some child) :
    ∃ action, (actionsOf s scope)[index]? = some action ∧
      (action = (verdict s scope index child).action ∨
        child.isToken .comma ∧ action = .remove .unit) := by
  have hverdict : ((verdicts s scope).map (·.action))[index]? =
      some (verdict s scope index child).action := by
    simp [verdicts, hchild]
  unfold actionsOf actions
  dsimp only
  split
  · exact withoutCommas_getElem? hchild hverdict
  · exact ⟨_, hverdict, .inl rfl⟩

theorem actions_of_keep
    (h : ∀ v ∈ verdicts s scope, v.action ≠ .remove .unit) :
    actionsOf s scope = (verdicts s scope).map (·.action) := by
  unfold actionsOf actions
  dsimp only
  split
  · exact withoutCommas_of_keep (by simp [verdicts]) (by simpa using h)
  · rfl

theorem actions_length : (actionsOf s scope).length = scope.children.length := by
  unfold actionsOf actions
  dsimp only
  split
  · simp [withoutCommas_length, verdicts]
  · simp [verdicts]

theorem actions_forall₂ {P : Node → Action → Prop}
    (hverdict : ∀ index child, scope.children[index]? = some child →
      P child (verdict s scope index child).action)
    (hcomma : ∀ child, child.isToken .comma → P child (.remove .unit)) :
    List.Forall₂ P scope.children (actionsOf s scope) := by
  refine List.forall₂_of_length_eq_of_get actions_length.symm fun index hchild haction => ?_
  have hget := List.getElem?_eq_getElem hchild
  obtain ⟨action, hnew, hcases⟩ := actions_getElem? hget
  obtain ⟨_, rfl⟩ := List.getElem?_eq_some_iff.1 hnew
  simp only [List.get_eq_getElem]
  rcases hcases with hsame | ⟨hcommaHere, hgone⟩
  · exact hsame ▸ hverdict index _ hget
  · exact hgone ▸ hcomma _ hcommaHere

theorem verdict_endOfFile {s : Setting} {statements : List Node} {place : Span} {token : Token}
    (h : token.kind = .endOfFile) :
    (verdict s ⟨.sourceFile, place, .none, statements⟩ index (.leaf token)).action = .stay := by
  simp [verdict, constantOwner?, childVerdict, childTask, policy, Node.isToken, Node.isKind,
    Node.kind?, Node.token?, h, Action.stay]

/-! ## Tasks that come from the fields of a constructor -/

/-- The task has nothing to do with the fields of a constructor. -/
def Task.isOrdinary : Task → Bool
  | .fields _ => false
  | .trivia _ => false
  | _ => true

/-- The action gives a kept child no task that has to do with fields. -/
def Action.isOrdinary : Action → Bool
  | .keep task _ _ => task.isOrdinary
  | _ => true

/-! ## What can happen to a child -/

/-- What can happen to a statement. -/
inductive StatementFate (s : Setting) (scope : Scope) (statement : Node) : Action → Prop where
  | remove : StatementFate s scope statement (.remove .unit)
  | stay : StatementFate s scope statement .stay
  | imports : StatementFate s scope statement (.keep .imports [] [])
  | exports (reexport : Bool) : StatementFate s scope statement (.keep (.exports reexport) [] [])
  | assigned {owner : String} {after : List Inserted} : exportOwner? scope statement = some owner →
    after ⊆ exportAssignment s owner statement →
    StatementFate s scope statement (.keep .assigned [] after)
  | constants {owner : String} : exportOwner? scope statement = some owner →
    StatementFate s scope statement (.keep (.constants owner) [] [])
  | function : statement.isKind .moduleDeclaration →
    isTypeOnlyModule statement.children = false →
    isLowerable s.source scope.children statement → StatementFate s scope statement
      (.keep (.function (lowering s.source (exportOwner? scope statement) statement)) [] [])
  | enum {text : String} : statement.isKind .enumDeclaration →
    enumText? s.source statement (Text.lineIndent s.source statement.span.start) s.unit =
      some text →
    StatementFate s scope statement (.replace
      { anchor := statement.span.pos, text, lowered := true
        trivia := some (statement.firstLeaf.leadingTrivia s.source) })

/-- What can happen to a child of a node. -/
inductive Fate (s : Setting) (scope : Scope) (index : Nat) (child : Node) : Action → Prop where
  | remove (removal : Removal) : Fate s scope index child (.remove removal)
  | keep : Fate s scope index child (.keep (childTask s scope index child) [] [])
  | statement {action : Action} : StatementFate s scope child action →
      Fate s scope index child action
  | operand (place : OperandPlace) : Fate s scope index child (.keep (.operand place) [] [])
  | between {before after : List Inserted} :
    (∀ piece ∈ before ++ after, piece.trivia.all (· == " ")) →
    Fate s scope index child (.keep .none before after)
  | body (name : String) {after : List Inserted} : child.isKind .moduleBlock →
    (∀ piece ∈ after, piece.trivia = none) →
    Fate s scope index child (.keep (.functionBody name) [] after)
  | replace (text : String) : Fate s scope index child (replaceToken s.source child text)
  | fields {plan : FieldPlan} {action : Action} : scope.task = .fields plan →
    Fate s scope index child action → Fate s scope index child (action.followedBy plan.assignments)

theorem keepStatement_fate (s : Setting) (scope : Scope) (statement : Node) :
    StatementFate s scope statement (keepStatement s scope statement) := by
  unfold keepStatement
  split
  · exact .stay
  · rename_i owner howner
    split
    iterate 2 exact .assigned howner (List.Subset.refl _)
    · exact .constants howner
    · exact .assigned howner (List.nil_subset _)

theorem namespaceVerdict_fate (s : Setting) (scope : Scope) {statement : Node}
    (hkind : statement.kind? = some .moduleDeclaration) :
    StatementFate s scope statement (namespaceVerdict s scope statement).action := by
  unfold namespaceVerdict
  split
  · exact .remove
  · rename_i hvalue
    split
    · exact .function (beq_iff_eq.2 hkind) (by simpa using hvalue) (Bool.and_eq_true_iff.1 ‹_›).2
    · exact .stay

theorem statementVerdict_fate (s : Setting) (scope : Scope) (statement : Node) :
    StatementFate s scope statement (statementVerdict s scope statement).action := by
  have hkeep := keepStatement_fate s scope statement
  unfold statementVerdict importAction exportAction enumVerdict
  dsimp only
  repeat' split
  all_goals first
    | exact .remove
    | exact .stay
    | exact hkeep
    | exact .imports
    | exact .exports _
    | exact namespaceVerdict_fate s scope ‹_›
    | exact .enum (beq_iff_eq.2 ‹_›) ‹_›

/-- What happens to a statement of which something is there at run time. -/
def valueVerdict (s : Setting) (scope : Scope) (statement : Node) : Verdict :=
  match statement.kind? with
  | some .moduleDeclaration => namespaceVerdict s scope statement
  | some .importDeclaration => ⟨importAction s statement, none⟩
  | some .importEqualsDeclaration =>
    if s.options.elideImports &&
        s.usage.isTypeOnlyBinding ((declaredName? s.source statement).getD "") then
      ⟨.remove .unit, none⟩
    else ⟨.stay, none⟩
  | some .exportDeclaration => ⟨exportAction s statement, none⟩
  | some .exportAssignment =>
    if (statement.children[2]?.bind (Node.name? s.source)).any s.usage.isTypeOnlyDeclaration then
      ⟨.remove .unit, none⟩
    else ⟨.stay, none⟩
  | some .enumDeclaration => enumVerdict s statement
  | _ => ⟨keepStatement s scope statement, none⟩

/-- A statement goes if nothing of it is there at run time. -/
theorem statementVerdict_eq (s : Setting) (scope : Scope) (statement : Node) :
    statementVerdict s scope statement =
      if isTypeOnlyStatement statement then ⟨.remove .unit, none⟩
      else valueVerdict s scope statement := by
  cases statement with
  | leaf token | inserted piece => rfl
  | branch kind span marks children =>
    by_cases hdeclare : children.any (Node.isToken .declareKeyword)
    · unfold statementVerdict isTypeOnlyStatement
      simp only [Node.kind?, Node.hasToken, Node.children, hdeclare, Bool.true_or, if_true]
      split <;> split <;> simp_all
    have hdeclare := Bool.eq_false_iff.2 hdeclare
    have hblock : (children.find? (Node.isKind .block)).isNone =
        !children.any (Node.isKind .block) := by
      rw [← Option.not_isSome, List.isSome_find?]
    cases kind
    all_goals
      simp only [statementVerdict, isTypeOnlyStatement, valueVerdict, Node.kind?, Node.hasToken,
        Node.child?, Node.children, hdeclare, hblock, namespaceVerdict, importAction, isTypeImport,
        exportAction, Bool.false_or]
      repeat' split
      all_goals first | rfl | simp_all

theorem statementVerdict_of_value {statement : Node} (h : isTypeOnlyStatement statement = false) :
    statementVerdict s scope statement = valueVerdict s scope statement := by
  rw [statementVerdict_eq, if_neg (by simp [h])]

theorem functionAction_fate (lowering : Lowering) :
    Fate s scope index child (functionAction s.source lowering child) := by
  unfold functionAction
  split
  · exact .replace _
  · exact .replace _
  · exact .between (by simp)
  · rename_i hlabel
    refine .body _ ?_ (by simp)
    cases child <;> simp_all [Node.label, Node.isKind, Node.kind?]
  · exact .statement .stay

theorem childVerdict_fate (s : Setting) (scope : Scope) (index : Nat) (child : Node) :
    Fate s scope index child (childVerdict s scope index child).action := by
  unfold childVerdict classAction operandAction
  dsimp only
  repeat' split
  all_goals first
    | exact .keep
    | exact .remove _
    | exact .statement (statementVerdict_fate s scope child)
    | exact .statement .stay
    | exact .operand _
    | exact .replace _
    | exact .between (by simp)

theorem verdict_fate (s : Setting) (scope : Scope) (index : Nat) (child : Node) :
    Fate s scope index child (verdict s scope index child).action := by
  have hown := childVerdict_fate s scope index child
  unfold verdict
  dsimp only
  repeat' split
  all_goals first
    | exact hown
    | exact .remove _
    | exact functionAction_fate _
    | exact .fields ‹_› hown
    | exact .between (by simp)

theorem StatementFate.isOrdinary (h : StatementFate s scope child action) : action.isOrdinary := by
  cases h <;> rfl

/-- The fields of the plan are assigned after a child that the node has. -/
def Task.Fits (task : Task) (node : Node) : Prop :=
  ∀ plan, task = .fields plan → plan.assignments ≠ [] ∧ plan.position < node.children.length

theorem Task.fits_of_isOrdinary {task : Task} (h : task.isOrdinary) (node : Node) :
    task.Fits node := by
  rintro plan rfl
  cases h

theorem fieldPlan_position {source unit : String} {start : Nat} {names : List String} {body : Node}
    (hbody : body.children ≠ []) :
    (fieldPlan source unit start names body).position < body.children.length := by
  simp only [fieldPlan]
  cases hfind : body.children.findIdx? isSuperCall with
  | none => simpa using List.length_pos_iff.2 hbody
  | some index =>
    rw [List.findIdx?_eq_some_iff_getElem] at hfind
    exact hfind.choose

theorem childTask_fits (hchild : child.isKind .block → child.children ≠ []) :
    (childTask s scope index child).Fits child := by
  intro plan hplan
  unfold childTask at hplan
  dsimp only at hplan
  split at hplan
  · split at hplan
    · rename_i hblock
      simp only [Bool.and_eq_true, Bool.not_eq_true', List.isEmpty_eq_false_iff] at hblock
      cases hplan
      exact ⟨by simpa [fieldPlan] using hblock.2, fieldPlan_position (hchild hblock.1)⟩
    · cases hplan
  all_goals
    repeat' split at hplan
    all_goals cases hplan

theorem childTask_trivia {trivia : String} (h : childTask s scope index child = .trivia trivia) :
    ∃ plan, scope.task = .fields plan := by
  unfold childTask at h
  dsimp only at h
  repeat' split at h
  all_goals first
    | exact ⟨_, ‹scope.task = .fields _›⟩
    | cases h

/-- The task that the action gives a kept child suits the child, and new trivia is given only
in the body of a constructor with fields. -/
def Action.Suits (scope : Scope) (child : Node) (action : Action) : Prop :=
  ∀ task before after, action = .keep task before after →
    task.Fits child ∧ ∀ trivia, task = .trivia trivia → ∃ plan, scope.task = .fields plan

theorem Action.suits_of_isOrdinary (h : action.isOrdinary) (child : Node) :
    action.Suits scope child := by
  rintro task before after rfl
  refine ⟨Task.fits_of_isOrdinary h child, ?_⟩
  rintro trivia rfl
  cases h

theorem Action.Suits.followedBy (h : action.Suits scope child) (pieces : List Inserted) :
    (action.followedBy pieces).Suits scope child := by
  intro task before after haction
  cases action with
  | keep task' before' after' =>
    cases haction
    exact h task before after' rfl
  | replace piece | remove removal => cases haction

theorem Fate.suits (h : Fate s scope index child action)
    (hchild : child.isKind .block → child.children ≠ []) : action.Suits scope child := by
  induction h with
  | keep =>
    rintro task before after ⟨rfl, rfl, rfl⟩
    exact ⟨childTask_fits hchild, fun trivia h => childTask_trivia h⟩
  | statement h => exact Action.suits_of_isOrdinary h.isOrdinary child
  | fields _ _ ih => exact ih.followedBy _
  | _ => exact Action.suits_of_isOrdinary rfl child

/-- The child does not simply stay. -/
def Action.alters : Action → Bool
  | .keep _ before after => !before.isEmpty || !after.isEmpty
  | _ => true

theorem constantOwner?_eq_none (index : Nat)
    (h : scope.kind ≠ .variableDeclaration ∨ ∀ owner, scope.task ≠ .constants owner) :
    constantOwner? s scope index = none := by
  unfold constantOwner?
  split
  · rename_i hkind htask
    rcases h with h | h
    · exact absurd hkind h
    · exact absurd htask (h _)
  · rfl

theorem verdict_alters (htask : scope.task = .fields plan) (hplan : plan.assignments ≠ [])
    (child : Node) : (verdict s scope plan.position child).action.alters := by
  unfold verdict
  rw [constantOwner?_eq_none _ (.inr (by simp [htask])), htask]
  dsimp only
  repeat' split
  iterate 6 exact rfl
  · generalize (childVerdict _ _ _ _).action = action
    cases action <;> simp [Action.followedBy, Action.alters, hplan]
  · rename_i hposition
    exact absurd (beq_self_eq_true plan.position) hposition

end Untype.Erasure
