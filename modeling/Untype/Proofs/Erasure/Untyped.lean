-- Code without types. Nothing in it is told about, and nothing is removed but
-- a parameter in a list that has the word `this` as a child of its own.
import Untype.Proofs.Erasure.Actions
import Untype.Proofs.Erasure.Uses

namespace Untype.Erasure

open Untype.Node

variable {kind : NodeKind} {children : List Node} {statement binding : Node}

/-! ## Code without types -/

/-- The name that the parameter declares is `this`: the word stands before any equals sign. -/
def declaresThis (parameter : List Node) : Bool :=
  (parameter.takeWhile fun child => !child.isToken .equals).any (Node.isToken .thisKeyword)

/-- The value that the parameter has when it is left out is the bare word `this`. -/
def defaultsToThis (parameter : Node) : Bool :=
  (parameter.children.dropWhile fun child => !child.isToken .equals).any
    (Node.isToken .thisKeyword)

/-- A production that holds no syntax of types among its own parts, and none that is put into
other words: no modifier `type`, no `implements`, no `?` or `!` beside a declared name, no
missing body, and no parameter with the name `this`. -/
def hasPlainParts (kind : NodeKind) (children : List Node) : Bool :=
  let has (token : TokenKind) : Bool := children.any (Node.isToken token)
  let hasBody : Bool := children.any (Node.isKind .block)
  match kind with
  | .enumDeclaration | .moduleDeclaration | .importEqualsDeclaration => false
  | .exportAssignment => !has .equals
  | .importClause | .importSpecifier | .exportDeclaration | .exportSpecifier => !has .typeKeyword
  | .heritageClause => !has .implementsKeyword
  | .functionDeclaration => hasBody
  | .methodDeclaration | .classConstructor | .getAccessor | .setAccessor =>
    hasBody && !has .question && !has .exclamation
  | .propertyDeclaration | .variableDeclaration => !has .question && !has .exclamation
  | .parameter => !has .question && !has .exclamation && !declaresThis children
  | kind => !kind.isTypeOnly

/-- The node itself has to do with no types. -/
def isPlain : Node → Bool
  | .leaf token => !token.kind.isTypeModifier
  | .inserted _ => true
  | .branch kind _ _ children => hasPlainParts kind children

/-- No node of the tree has to do with types. -/
def isUntyped (node : Node) : Bool := node.descendants.all isPlain

theorem isUntyped_branch {span : Span} {marks : Marks} :
    isUntyped (.branch kind span marks children) ↔
      hasPlainParts kind children ∧ ∀ child ∈ children, isUntyped child := by
  simp only [isUntyped, descendants, List.all_cons, Bool.and_eq_true, isPlain, List.all_eq_true,
    mem_descendantsOf]
  refine and_congr_right fun _ => ⟨fun h child hchild part hpart => h part ⟨child, hchild, hpart⟩,
    ?_⟩
  rintro h part ⟨child, hchild, hpart⟩
  exact h child hchild part hpart

section Parts

variable {node : Node} (h : isUntyped node)

include h

theorem isPlain_of_isUntyped : isPlain node :=
  List.all_eq_true.1 h node (mem_descendants_self node)

theorem isUntyped_child {child : Node} (hchild : child ∈ node.children) :
    isUntyped child := by
  cases node with
  | branch kind span marks children => exact (isUntyped_branch.1 h).2 child hchild
  | _ => cases hchild

theorem hasPlainParts_of_isKind (hkind : node.isKind kind) :
    hasPlainParts kind node.children := by
  cases node with
  | branch kind' span marks children =>
    obtain rfl : kind' = kind := by simpa [isKind, kind?] using hkind
    exact (isUntyped_branch.1 h).1
  | _ => cases hkind

/-- No modifier of types is a part of the node. -/
theorem hasToken_of_isTypeModifier (kind : TokenKind) (hkind : kind.isTypeModifier) :
    node.hasToken kind = false := by
  rw [hasToken, List.any_eq_false]
  intro child hchild htoken
  have hplain := isPlain_of_isUntyped (isUntyped_child h hchild)
  cases child with
  | leaf token =>
    obtain rfl : token.kind = kind := by simpa [isToken, token?] using htoken
    simp [isPlain, hkind] at hplain
  | _ => cases htoken

theorem isKind_of_isTypeOnly (kind : NodeKind) (hkind : kind.isTypeOnly) :
    node.isKind kind = false := by
  by_contra hnode
  have hplain := hasPlainParts_of_isKind h (by simpa using hnode)
  cases kind <;> simp [NodeKind.isTypeOnly, NodeKind.isTypeNode] at hkind <;>
    simp [hasPlainParts, NodeKind.isTypeOnly, NodeKind.isTypeNode] at hplain

theorem child?_of_isTypeOnly (kind : NodeKind) (hkind : kind.isTypeOnly) :
    node.child? kind = none := by
  rw [child?, List.find?_eq_none]
  intro child hchild
  simp [isKind_of_isTypeOnly (isUntyped_child h hchild) kind hkind]

end Parts

/-! ## Names -/

theorem isTypeContext_of_hasPlainParts (h : hasPlainParts kind children) :
    isTypeContext kind children = false := by
  cases kind with
  | heritageClause => simpa [hasPlainParts, isTypeContext] using h
  | _ => first | rfl | simp [hasPlainParts, NodeKind.isTypeOnly, NodeKind.isTypeNode] at h

mutual

variable {source : String}

/-- Code without types uses no name as a type. -/
theorem uses_ne_type : ∀ {node : Node}, isUntyped node →
    ∀ use ∈ uses source false node, ∀ name, use ≠ .type name
  | leaf token, _, use, huse, name => by
    rw [uses] at huse
    split at huse <;> simp at huse
    simp [huse]
  | inserted piece, _, use, huse, name => by
    simp [uses] at huse
  | branch kind span marks children, h, use, huse, name => by
    obtain ⟨hparts, hchildren⟩ := isUntyped_branch.1 h
    rcases eq_or_ne kind .importDeclaration with rfl | himport
    · simp [uses] at huse
    · rcases eq_or_ne kind .importEqualsDeclaration with rfl | hequals
      · simp [hasPlainParts] at hparts
      · rw [uses_branch himport hequals, isTypeContext_of_hasPlainParts hparts] at huse
        rcases List.mem_append.1 huse with hself | hbelow
        · unfold elementUse at hself
          split at hself <;> simp at hself
          all_goals simp [hself]
        · exact usesOf_ne_type hchildren use hbelow name

theorem usesOf_ne_type : ∀ {nodes : List Node},
    (∀ node ∈ nodes, isUntyped node) →
      ∀ use ∈ usesOf source false nodes, ∀ name, use ≠ .type name
  | [], _, use, huse, name => by simp [usesOf] at huse
  | node :: nodes, h, use, huse, name => by
    rw [List.forall_mem_cons] at h
    rw [usesOf] at huse
    rcases List.mem_append.1 huse with hnode | hrest
    · exact uses_ne_type h.1 use hnode name
    · exact usesOf_ne_type h.2 use hrest name

end

theorem isUntyped_of_mem_importBindings (h : isUntyped statement)
    (hbinding : binding ∈ importBindings statement) : isUntyped binding := by
  unfold importBindings at hbinding
  split at hbinding
  · simp at hbinding
  · rename_i clause hclause
    obtain ⟨child, hchild, hbinding⟩ := List.mem_flatMap.1 hbinding
    have hpart : isUntyped child :=
      isUntyped_child (isUntyped_child h (List.mem_of_find?_eq_some hclause)) hchild
    split at hbinding
    iterate 2 exact List.mem_singleton.1 hbinding ▸ hpart
    · exact isUntyped_child hpart (List.mem_filter.1 hbinding).1
    · simp at hbinding

theorem isMarkedType_of_isUntyped (h : isUntyped binding) :
    isMarkedType binding = false := by
  rw [isMarkedType, Bool.and_eq_false_imp]
  intro hkind
  simpa [hasPlainParts, hasToken] using hasPlainParts_of_isKind h hkind

theorem isTypeImport_of_isUntyped (h : isUntyped statement) :
    isTypeImport statement = false := by
  unfold isTypeImport
  cases hclause : statement.child? .importClause with
  | none => rfl
  | some clause =>
    have hmem := List.mem_of_find?_eq_some hclause
    have hkind := List.find?_some hclause
    simpa [hasPlainParts, hasToken] using
      hasPlainParts_of_isKind (isUntyped_child h hmem) hkind

theorem declaredTypes_of_isUntyped {source : String} (h : isUntyped statement) :
    declaredTypes source statement = [] := by
  unfold declaredTypes
  split
  · rename_i hkind
    have hother := isKind_of_isTypeOnly h .interfaceDeclaration rfl
    simp [isKind, hkind] at hother
  · rename_i hkind
    have hother := isKind_of_isTypeOnly h .typeAliasDeclaration rfl
    simp [isKind, hkind] at hother
  · simp only [List.filterMap_eq_nil_iff, List.mem_filter]
    rintro binding ⟨hbinding, hmarked⟩
    simp [isTypeImport_of_isUntyped h,
      isMarkedType_of_isUntyped (isUntyped_of_mem_importBindings h hbinding)] at hmarked
  · rfl

/-- No name of the file is known as one of types only. -/
structure Setting.IsUntyped (s : Setting) : Prop where
  binding : ∀ name, s.usage.isTypeOnlyBinding name = false
  declaration : ∀ name, s.usage.isTypeOnlyDeclaration name = false

theorem Setting.IsUntyped.any_declaration {s : Setting} (hs : s.IsUntyped) (name : Option String) :
    name.any s.usage.isTypeOnlyDeclaration = false := by
  cases name with
  | none => rfl
  | some name => exact hs.declaration name

theorem Setting.ofTree_isUntyped (options : Options) (source : String) {root : Node}
    (h : isUntyped root) : (Setting.ofTree options source root).IsUntyped := by
  have htypes : (Usage.ofTree options source root).typeNames = [] := by
    simp only [Usage.ofTree, List.filterMap_eq_nil_iff]
    intro use huse
    have hne := uses_ne_type h use huse
    cases use with
    | type name => exact absurd rfl (hne name)
    | _ => rfl
  have hdeclared : (Usage.ofTree options source root).declaredTypes = [] := by
    simp only [Usage.ofTree, List.flatMap_eq_nil_iff]
    exact fun statement hstatement => declaredTypes_of_isUntyped (isUntyped_child h hstatement)
  exact ⟨fun name => by simp [Setting.ofTree, Usage.isTypeOnlyBinding, htypes],
    fun name => by simp [Setting.ofTree, Usage.isTypeOnlyDeclaration, hdeclared]⟩

/-! ## Verdicts -/

/-- The task asks for no change by itself. -/
def Task.isQuiet : Task → Bool
  | .none => true
  | .operand _ => true
  | .imports => true
  | .exports _ => true
  | _ => false

/-- The child stays, and so do the places beside it. -/
def Action.IsQuiet (action : Action) : Prop :=
  ∃ task, task.isQuiet ∧ action = .keep task [] []

theorem Action.stay_isQuiet : Action.stay.IsQuiet := ⟨.none, rfl, rfl⟩

section Verdicts

variable {s : Setting} {scope : Scope} {child : Node}
variable {index : Nat}

theorem dropsBinding_of_isUntyped (hs : s.IsUntyped) (h : isUntyped child) :
    dropsBinding s child = false := by
  unfold dropsBinding
  cases bindingName? s.source child with
  | none => rfl
  | some name => simp [isMarkedType_of_isUntyped h, hs.binding]

theorem importAction_isQuiet (hs : s.IsUntyped) (h : isUntyped child) :
    (importAction s child).IsQuiet := by
  unfold importAction
  simp only [isTypeImport_of_isUntyped h, Bool.false_eq_true, if_false]
  split
  · exact Action.stay_isQuiet
  · rename_i hne
    split
    · rename_i hall
      obtain ⟨binding, hbinding⟩ := List.exists_mem_of_ne_nil _ (mt List.isEmpty_iff.2 hne)
      have hdrops := List.all_eq_true.1 hall binding hbinding
      rw [dropsBinding_of_isUntyped hs (isUntyped_of_mem_importBindings h hbinding)] at hdrops
      cases hdrops
    · exact ⟨.imports, rfl, rfl⟩

theorem dropsSpecifier_of_isUntyped (hs : s.IsUntyped) (h : isUntyped child)
    (reexport : Bool) : dropsSpecifier s reexport child = false := by
  rw [dropsSpecifier, Bool.and_eq_false_imp]
  intro hkind
  have hmark : child.hasToken .typeKeyword = false := by
    simpa [hasPlainParts, hasToken] using hasPlainParts_of_isKind h hkind
  simp [hmark, hs.any_declaration]

theorem exportAction_isQuiet (hs : s.IsUntyped) (h : isUntyped child)
    (hkind : child.isKind .exportDeclaration) : (exportAction s child).IsQuiet := by
  have hmark : child.children[1]?.any (Node.isToken .typeKeyword) = false := by
    have hparts := hasPlainParts_of_isKind h hkind
    simp only [hasPlainParts, Bool.not_eq_true', List.any_eq_false] at hparts
    cases hsecond : child.children[1]? with
    | none => rfl
    | some second => simpa using hparts second (List.mem_of_getElem? hsecond)
  unfold exportAction
  rw [hmark]
  dsimp only
  split
  · rename_i hfalse
    cases hfalse
  · split
    · exact Action.stay_isQuiet
    · rename_i named hnamed
      have hspecifier : ∀ specifier ∈ named.children, isUntyped specifier :=
        fun specifier => isUntyped_child (isUntyped_child h (List.mem_of_find?_eq_some hnamed))
      split
      · exact Action.stay_isQuiet
      · rename_i hne
        split
        · rename_i hall
          obtain ⟨specifier, hmem⟩ := List.exists_mem_of_ne_nil _ (mt List.isEmpty_iff.2 hne)
          have hdrops := List.all_eq_true.1 hall specifier hmem
          rw [dropsSpecifier_of_isUntyped hs
            (hspecifier specifier (List.mem_filter.1 hmem).1)] at hdrops
          cases hdrops
        · exact ⟨_, rfl, rfl⟩

theorem keepStatement_of_isQuiet (htask : scope.task.isQuiet) :
    keepStatement s scope child = .stay := by
  have howner : exportOwner? scope child = none := by
    unfold exportOwner?
    cases h : scope.task <;> simp_all [Task.isQuiet]
  simp [keepStatement, howner]

theorem child?_block (h : child.children.any (Node.isKind .block)) :
    (child.child? .block).isNone = false := by
  simpa [child?] using h

/-- A statement of code without types stays. -/
theorem statementVerdict_isQuiet (hs : s.IsUntyped) (htask : scope.task.isQuiet)
    (h : isUntyped child) :
    (statementVerdict s scope child).action.IsQuiet ∧
      (statementVerdict s scope child).finding = none := by
  have htypeOnly : ∀ kind : NodeKind, kind.isTypeOnly → child.kind? ≠ some kind := by
    intro kind hkind heq
    have hother := isKind_of_isTypeOnly h kind hkind
    simp [isKind, heq] at hother
  have hparts : ∀ kind, child.kind? = some kind → hasPlainParts kind child.children :=
    fun kind hkind => hasPlainParts_of_isKind h (by simp [isKind, hkind])
  have hkeep : (keepStatement s scope child).IsQuiet :=
    keepStatement_of_isQuiet htask ▸ Action.stay_isQuiet
  unfold statementVerdict
  simp only [hasToken_of_isTypeModifier h .declareKeyword rfl, Bool.false_eq_true, if_false]
  split
  iterate 3 exact absurd ‹_› (htypeOnly _ rfl)
  · split
    · rename_i hkind
      rw [child?_block (by simpa [hasPlainParts] using hparts _ hkind)]
      exact ⟨hkeep, rfl⟩
    · rename_i hkind
      simpa [hasPlainParts] using hparts _ hkind
    · exact ⟨importAction_isQuiet hs h, rfl⟩
    · rename_i hkind
      simpa [hasPlainParts] using hparts _ hkind
    · rename_i hkind
      exact ⟨exportAction_isQuiet hs h (by simp [isKind, hkind]), rfl⟩
    · rw [hs.any_declaration]
      exact ⟨Action.stay_isQuiet, rfl⟩
    · rename_i hkind
      simpa [hasPlainParts] using hparts _ hkind
    · exact ⟨hkeep, rfl⟩

theorem isKind_of_label (h : child.label = .branch kind) : child.isKind kind := by
  cases child <;> simp_all [label, isKind, kind?]

theorem isTypeModifier_of_token? {kind : TokenKind} (h : isUntyped child)
    (htoken : child.token? = some kind) : kind.isTypeModifier = false := by
  have hplain := isPlain_of_isUntyped h
  cases child with
  | leaf token =>
    cases htoken
    simpa [isPlain] using hplain
  | _ => cases htoken

theorem isBareField_of_isUntyped (h : isUntyped child)
    (hkind : child.isKind .propertyDeclaration) : isBareField child = false := by
  have hparts := hasPlainParts_of_isKind h hkind
  simp only [hasPlainParts, Bool.and_eq_true, Bool.not_eq_true'] at hparts
  simp [isBareField, child?_of_isTypeOnly h .annotatedType rfl, hasToken, hparts.1, hparts.2]

/-- A part of a class of code without types stays. -/
theorem classAction_isQuiet (h : isUntyped child) : (classAction s child).IsQuiet := by
  have hbody : ∀ kind, child.label = .branch kind →
      (hasPlainParts kind child.children →
        child.children.any (Node.isKind .block)) →
      (child.child? .block).isNone = false := fun kind hlabel hblock =>
    child?_block (hblock (hasPlainParts_of_isKind h (isKind_of_label hlabel)))
  unfold classAction
  simp only [hasToken_of_isTypeModifier h .abstractKeyword rfl,
    hasToken_of_isTypeModifier h .declareKeyword rfl, Bool.false_or]
  split
  · rename_i hlabel
    rw [isTypeModifier_of_token? h (by cases child <;> simp_all [label, token?])]
    exact Action.stay_isQuiet
  · rename_i hlabel
    have hparts := hasPlainParts_of_isKind h (isKind_of_label hlabel)
    simp only [hasPlainParts, Bool.not_eq_true'] at hparts
    rw [hasToken, hparts]
    exact Action.stay_isQuiet
  · rename_i hlabel
    have hother := isKind_of_isTypeOnly h .indexSignature rfl
    rw [isKind_of_label hlabel] at hother
    cases hother
  iterate 4
    rename_i hlabel
    rw [hbody _ hlabel (by simp [hasPlainParts]; tauto)]
    exact Action.stay_isQuiet
  · rename_i hlabel
    rw [isBareField_of_isUntyped h (isKind_of_label hlabel), Bool.and_false]
    exact Action.stay_isQuiet
  · exact Action.stay_isQuiet

/-! ## All children -/

/-- The parameters of code without types declare no fields. -/
theorem fieldNames_of_isUntyped {source : String} (h : ∀ child ∈ children, isUntyped child) :
    fieldNames source children = [] := by
  unfold fieldNames
  split
  · rfl
  · rename_i list hlist
    have huntyped := h list (List.mem_of_find?_eq_some hlist)
    simp only [List.filterMap_eq_nil_iff, List.mem_filter]
    rintro parameter ⟨hparameter, hfield⟩
    simp only [Bool.and_eq_true, List.any_eq_true] at hfield
    obtain ⟨-, child, hchild, hdeclares⟩ := hfield
    cases htoken : child.token? with
    | none => simp [htoken] at hdeclares
    | some kind =>
      have hmodifier := isTypeModifier_of_token?
        (isUntyped_child (isUntyped_child huntyped hparameter) hchild) htoken
      simp [htoken, declaresField, hmodifier] at hdeclares

/-- Nothing in the scope is about types, and the task asks for no change. -/
structure Scope.IsUntyped (s : Setting) (scope : Scope) : Prop where
  setting : s.IsUntyped
  parts : hasPlainParts scope.kind scope.children
  children : ∀ child ∈ scope.children, isUntyped child
  task : scope.task.isQuiet

theorem childTask_isQuiet (hscope : scope.IsUntyped s) (index : Nat) :
    (childTask s scope index child).isQuiet := by
  unfold childTask
  dsimp only
  have htask := hscope.task
  split
  · simp [fieldNames_of_isUntyped hscope.children, Task.isQuiet]
  all_goals
    repeat' split
    all_goals first
      | rfl
      | simp_all [Task.isQuiet]

/-- The parameter goes: it has the word `this` as a child of its own. -/
def isDropped (child : Node) : Bool := child.isKind .parameter && child.hasToken .thisKeyword

theorem eq_parameterList_of_policy (h : policy kind = .parameters) : kind = .parameterList := by
  cases kind <;> first | rfl | cases h

theorem isToken_mark_of_policy (hpolicy : policy kind = .member ∨ policy kind = .variableName)
    (h : hasPlainParts kind children) (hchild : child ∈ children) :
    child.isToken .question = false ∧ child.isToken .exclamation = false := by
  have hmarks : children.any (Node.isToken .question) = false ∧
      children.any (Node.isToken .exclamation) = false := by
    rcases hpolicy with hpolicy | hpolicy <;> cases kind <;> cases hpolicy
    all_goals
      simp only [hasPlainParts, Bool.and_eq_true, Bool.not_eq_true'] at h
      simp only [h, and_self]
  simp only [List.any_eq_false, Bool.not_eq_true] at hmarks
  exact ⟨hmarks.1 child hchild, hmarks.2 child hchild⟩

theorem policy_of_hasPlainParts (h : hasPlainParts kind children) :
    policy kind ≠ .assertion ∧ policy kind ≠ .cast ∧ policy kind ≠ .importEquals ∧
      policy kind ≠ .typeSyntax := by
  cases kind <;> first | decide | cases h

theorem eq_exportAssignment_of_policy (h : policy kind = .exportAssignment) :
    kind = .exportAssignment := by
  cases kind <;> first | rfl | cases h

theorem dropsAllBindings_of_isUntyped (hs : s.IsUntyped) (h : isUntyped child) :
    dropsAllBindings s child = false := by
  unfold dropsAllBindings
  dsimp only
  rw [Bool.and_eq_false_imp, Bool.not_eq_true', List.isEmpty_eq_false_iff]
  intro hne
  obtain ⟨specifier, hmem⟩ := List.exists_mem_of_ne_nil _ hne
  rw [List.all_eq_false]
  refine ⟨specifier, hmem, ?_⟩
  rw [dropsBinding_of_isUntyped hs (isUntyped_child h (List.mem_filter.1 hmem).1)]
  exact Bool.false_ne_true

theorem childVerdict_isQuiet (hscope : scope.IsUntyped s)
    (hchild : scope.children[index]? = some child)
    (hkept : scope.kind = .parameterList → isDropped child = false) :
    (childVerdict s scope index child).action.IsQuiet ∧
      (childVerdict s scope index child).finding = none := by
  obtain ⟨hs, hparts, hchildren, htask⟩ := hscope
  have hmem := List.mem_of_getElem? hchild
  have huntyped := hchildren child hmem
  have hstay : (Action.keep (childTask s scope index child) [] []).IsQuiet :=
    ⟨_, childTask_isQuiet ⟨hs, hparts, hchildren, htask⟩ index, rfl⟩
  obtain ⟨hassertion, hcast, hequals, htypes⟩ := policy_of_hasPlainParts hparts
  unfold childVerdict
  dsimp only
  split
  · split
    · exact ⟨hstay, rfl⟩
    · exact statementVerdict_isQuiet hs htask huntyped
  · exact ⟨classAction_isQuiet huntyped, rfl⟩
  · rename_i hpolicy
    obtain ⟨hquestion, hexclamation⟩ := isToken_mark_of_policy (.inl hpolicy) hparts hmem
    split
    · rename_i kind htoken
      simp only [isToken, htoken, Option.some_beq_some] at hquestion hexclamation
      rw [isTypeModifier_of_token? huntyped htoken, hquestion, hexclamation]
      exact ⟨hstay, rfl⟩
    · exact ⟨hstay, rfl⟩
  · rename_i hpolicy
    rw [(isToken_mark_of_policy (.inr hpolicy) hparts hmem).2]
    exact ⟨hstay, rfl⟩
  · rename_i hpolicy
    have hdropped := hkept (eq_parameterList_of_policy hpolicy)
    rw [isDropped] at hdropped
    rw [hdropped]
    exact ⟨hstay, rfl⟩
  · exact absurd ‹_› hassertion
  · exact absurd ‹_› hcast
  · rw [dropsAllBindings_of_isUntyped hs huntyped, dropsBinding_of_isUntyped hs huntyped, ite_self,
      Bool.and_false]
    exact ⟨hstay, rfl⟩
  · split
    · rw [dropsBinding_of_isUntyped hs huntyped]
      exact ⟨hstay, rfl⟩
    · rw [dropsSpecifier_of_isUntyped hs huntyped]
      exact ⟨hstay, rfl⟩
    · exact ⟨hstay, rfl⟩
  · exact absurd ‹_› hequals
  · rename_i hpolicy
    rw [eq_exportAssignment_of_policy hpolicy] at hparts
    simp only [hasPlainParts, Bool.not_eq_true', List.any_eq_false] at hparts
    have hsecond : scope.children[1]?.any (Node.isToken .equals) = false := by
      cases hget : scope.children[1]? with
      | none => rfl
      | some second => simpa using hparts second (List.mem_of_getElem? hget)
    rw [hsecond, Bool.and_false]
    exact ⟨hstay, rfl⟩
  iterate 3 exact ⟨hstay, rfl⟩

/-- The rules for children of their own apply. -/
theorem verdict_eq_childVerdict (htask : scope.task.isQuiet) (h : isUntyped child) (index : Nat) :
    verdict s scope index child = childVerdict s scope index child := by
  have howner : constantOwner? s scope index = none :=
    constantOwner?_eq_none index (.inr fun owner h => by rw [h] at htask; cases htask)
  have hexport : scope.task.dropsExport = false := by
    cases hkind : scope.task <;> rw [hkind] at htask <;> first | rfl | cases htask
  unfold verdict
  simp only [howner, hexport, isKind_of_isTypeOnly h .annotatedType rfl,
    isKind_of_isTypeOnly h .typeParameters rfl, isKind_of_isTypeOnly h .typeArguments rfl,
    Bool.and_false, Bool.false_eq_true, if_false]
  split
  · rename_i hfunction
    rw [hfunction] at htask
    cases htask
  · rename_i hfields
    rw [hfields] at htask
    cases htask
  · rfl

theorem verdict_isQuiet (hscope : scope.IsUntyped s) (hchild : scope.children[index]? = some child)
    (hkept : scope.kind = .parameterList → isDropped child = false) :
    (verdict s scope index child).action.IsQuiet ∧
      (verdict s scope index child).finding = none := by
  rw [verdict_eq_childVerdict hscope.task (hscope.children child (List.mem_of_getElem? hchild))]
  exact childVerdict_isQuiet hscope hchild hkept

theorem verdict_of_isDropped (hscope : scope.IsUntyped s)
    (hchild : scope.children[index]? = some child)
    (hkind : scope.kind = .parameterList) (hdropped : isDropped child) :
    verdict s scope index child = ⟨.remove .unit, none⟩ := by
  rw [verdict_eq_childVerdict hscope.task (hscope.children child (List.mem_of_getElem? hchild))]
  rw [isDropped] at hdropped
  simp [childVerdict, hkind, policy, hdropped]

end Verdicts

end Untype.Erasure
