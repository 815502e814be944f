-- What the statements at the top of a file declare, and what is left of it.
-- A declaration that counts as a value is left with the name, unless nothing
-- of it is there at run time or it is an import that only types use.
import Untype.Proofs.Erasure.Elision
import Untype.Proofs.Erasure.Remnants

namespace Untype

open Untype.Node

/-! ## Declarations -/

/-- The declarations that have one name, which is a token of their own. -/
def NodeKind.hasOwnName : NodeKind → Bool
  | .functionDeclaration | .classDeclaration | .enumDeclaration | .moduleDeclaration
  | .importEqualsDeclaration | .interfaceDeclaration | .typeAliasDeclaration => true
  | _ => false

namespace Node

/-- What an element of a pattern binds: it stands behind the colon, or else it is the first part
but for dots. -/
def bindingTarget? (element : Node) : Option Node :=
  match element.children.dropWhile fun child => !child.isToken .colon with
  | _ :: target :: _ => some target
  | _ => element.children.find? fun child => !child.isToken .dotDotDot

/-- A name that a pattern binds: the pattern itself, or a name that one of its elements binds. -/
inductive PatternBinds : Node → Node → Prop where
  | name {binder : Node} : binder.isToken .identifier → PatternBinds binder binder
  | element {pattern element target binder : Node} :
    (pattern.isKind .objectBindingPattern || pattern.isKind .arrayBindingPattern) →
    element ∈ pattern.children → element.isKind .bindingElement →
    element.bindingTarget? = some target → PatternBinds target binder → PatternBinds pattern binder

end Node

namespace Erasure

variable {kind : NodeKind} {pattern clause : Node} {task task' : Task} {span : Span} {marks : Marks}
  {children : List Node} {action : Action} {scope : Scope}

/-- The part of a statement that declares a name: the name of the declaration, a binding of an
import, or a name in the patterns of variables. -/
inductive Declares (source name : String) : Node → Node → Prop where
  | own {statement binder : Node} {before after : List Node} :
    statement.kind?.any NodeKind.hasOwnName → statement.children = before ++ binder :: after →
    (∀ old ∈ before, old.name? source = none) → binder.name? source = some name →
    Declares source name statement binder
  | imported {statement binder : Node} : statement.isKind .importDeclaration →
    binder ∈ importBindings statement → bindingName? source binder = some name →
    Declares source name statement binder
  | bound {statement list declaration pattern binder : Node} :
    statement.isKind .variableStatement → list ∈ statement.children →
    list.isKind .variableDeclarationList → declaration ∈ list.children →
    declaration.isKind .variableDeclaration → declaration.children.head? = some pattern →
    PatternBinds pattern binder → binder.text source = name → Declares source name statement binder

/-- What a statement declares is left under the new root: the statement with the part that
declares the name, or the variable that an enum becomes. -/
inductive LeftDeclared (root statement binder : Node) (name : String) : Prop where
  | kept {left part : Node} : left ∈ root.children → left.face = statement.face →
    part ∈ left.descendants → part.face = binder.face → LeftDeclared root statement binder name
  | asVariable {piece : Inserted} {exported : Bool} {values : List (String × MemberValue)}
    {indent unit : String} : statement.isKind .enumDeclaration →
    inserted piece ∈ root.children → piece.text = enumText name exported values indent unit →
    LeftDeclared root statement binder name

variable {s : Setting} {source name : String} {root statement binder node child : Node}

/-! ## Names that count -/

theorem bindingTarget?_mem {element target : Node} (h : element.bindingTarget? = some target) :
    target ∈ element.children := by
  unfold bindingTarget? at h
  split at h
  · rename_i first _ rest hrest
    cases h
    have hmem : target ∈ element.children.dropWhile fun child => !child.isToken .colon := by
      rw [hrest]
      simp
    exact (List.dropWhile_sublist _).subset hmem
  · exact List.mem_of_find?_eq_some h

theorem mem_patternNamesOf {nodes : List Node} :
    name ∈ patternNamesOf source nodes ↔ ∃ node ∈ nodes, name ∈ patternNames source node := by
  induction nodes with
  | nil => simp [patternNamesOf]
  | cons node nodes ih => simp [patternNamesOf, ih]

theorem patternNames_of_mem
    (hkind : kind = .variableDeclarationList ∨ kind = .objectBindingPattern ∨
      kind = .arrayBindingPattern ∨ kind = .bindingElement) (hnode : node.isKind kind)
    (hchild : child ∈ node.children) (h : name ∈ patternNames source child) :
    name ∈ patternNames source node := by
  obtain ⟨span, marks, children, rfl⟩ := exists_of_isKind hnode
  have hnames : patternNames source (branch kind span marks children) =
      patternNamesOf source children := by
    rcases hkind with rfl | rfl | rfl | rfl <;> rw [patternNames]
  rw [hnames]
  exact mem_patternNamesOf.2 ⟨child, hchild, h⟩

theorem mem_patternNames_of_binds (h : PatternBinds pattern binder) :
    binder.text source ∈ patternNames source pattern := by
  induction h with
  | @name binder hname =>
    cases binder with
    | leaf token =>
      have hkind : (token.kind == .identifier) := by simpa [isToken, token?] using hname
      rw [patternNames, if_pos hkind]
      exact List.mem_singleton_self _
    | inserted piece | branch kind span marks children => cases hname
  | @element pattern element target binder hpattern helement hkind htarget _ ih =>
    have hin : binder.text source ∈ patternNames source element :=
      patternNames_of_mem (by simp) hkind (bindingTarget?_mem htarget) ih
    rcases Bool.or_eq_true_iff.1 hpattern with hpattern | hpattern <;>
      exact patternNames_of_mem (by simp) hpattern helement hin

/-- A name that a statement declares counts, as a type or as a value. -/
theorem Declares.counts (h : Declares source name statement binder) :
    name ∈ declaredTypes source statement ∨ name ∈ declaredValues source statement := by
  cases h with
  | own hkind hchildren hbefore hname =>
    have hdeclared : declaredName? source statement = some name :=
      List.findSome?_eq_some_iff.2 ⟨_, _, _, hchildren, hname, hbefore⟩
    obtain ⟨kind, hsome, hown⟩ := (Option.any_eq_true _ _).1 hkind
    cases kind with
    | interfaceDeclaration | typeAliasDeclaration =>
      exact .inl (by simp [declaredTypes, hsome, hdeclared])
    | functionDeclaration | classDeclaration | enumDeclaration | moduleDeclaration
    | importEqualsDeclaration => exact .inr (by simp [declaredValues, hsome, hdeclared])
    | _ => cases hown
  | imported hkind hbinding hname =>
    have hsome : statement.kind? = some .importDeclaration := beq_iff_eq.1 hkind
    cases htype : isTypeImport statement || isMarkedType binder with
    | true =>
      refine .inl ?_
      simp only [declaredTypes, hsome]
      exact List.mem_filterMap.2 ⟨binder, List.mem_filter.2 ⟨hbinding, htype⟩, hname⟩
    | false =>
      refine .inr ?_
      simp only [declaredValues, hsome]
      exact List.mem_filterMap.2 ⟨binder, List.mem_filter.2 ⟨hbinding, by simp [htype]⟩, hname⟩
  | bound hkind hlist hlistKind hdeclaration hdeclarationKind hpattern hbinds hname =>
    have hsome : statement.kind? = some .variableStatement := beq_iff_eq.1 hkind
    refine .inr ?_
    simp only [declaredValues, hsome]
    refine mem_patternNamesOf.2 ⟨_, hlist, patternNames_of_mem (by simp) hlistKind hdeclaration ?_⟩
    obtain ⟨span, marks, children, rfl⟩ := exists_of_isKind hdeclarationKind
    obtain ⟨rest, rfl⟩ := List.head?_eq_some_iff.1 hpattern
    rw [patternNames, patternNamesOfFirst, ← hname]
    exact mem_patternNames_of_binds hbinds

theorem isMarkedType_of_isToken {kind : TokenKind} (h : binder.isToken kind) :
    isMarkedType binder = false := by
  cases binder with
  | leaf token | inserted piece => rfl
  | branch kind span marks children => cases h

theorem isToken_of_name? (h : node.name? source = some name) :
    node.isToken .identifier ∨ node.isToken .privateIdentifier := by
  unfold name? at h
  split at h
  · exact .inl (beq_iff_eq.2 ‹_›)
  · exact .inr (beq_iff_eq.2 ‹_›)
  · cases h

theorem isToken_of_patternBinds (h : PatternBinds pattern binder) :
    binder.isToken .identifier := by
  induction h with
  | name hname => exact hname
  | element _ _ _ _ _ ih => exact ih

theorem Declares.not_isMarkedType (h : Declares source name statement binder)
    (hkind : statement.isKind .importDeclaration = false) : isMarkedType binder = false := by
  cases h with
  | own _ _ _ hname =>
    rcases isToken_of_name? hname with htoken | htoken <;> exact isMarkedType_of_isToken htoken
  | imported himport => rw [hkind] at himport; cases himport
  | bound _ _ _ _ _ _ hbinds => exact isMarkedType_of_isToken (isToken_of_patternBinds hbinds)

/-- A statement that counts as one that declares a value has a part that does, unless the name is
only a key or a default in the patterns of variables. -/
theorem exists_declares (h : name ∈ declaredValues source statement) :
    (∃ binder, Declares source name statement binder ∧ isMarkedType binder = false) ∨
    statement.isKind .variableStatement ∧
      ∀ binder, ¬ Declares source name statement binder := by
  have hown : ∀ kind, statement.kind? = some kind → kind.hasOwnName →
      name ∈ (declaredName? source statement).toList →
      ∃ binder, Declares source name statement binder ∧ isMarkedType binder = false := by
    intro kind hkind hown hname
    obtain ⟨before, binder, after, hchildren, hbinder, hbefore⟩ :=
      List.findSome?_eq_some_iff.1 (Option.mem_toList.1 hname)
    have hdeclares : Declares source name statement binder :=
      .own ((Option.any_eq_true _ _).2 ⟨kind, hkind, hown⟩) hchildren hbefore hbinder
    refine ⟨binder, hdeclares, hdeclares.not_isMarkedType ?_⟩
    rw [isKind, hkind]
    cases kind with
    | importDeclaration => cases hown
    | _ => rfl
  unfold declaredValues at h
  split at h
  · rename_i hkind
    obtain ⟨binder, hbinder, hname⟩ := List.mem_filterMap.1 h
    obtain ⟨hbinder, htype⟩ := List.mem_filter.1 hbinder
    refine .inl ⟨binder, .imported (beq_iff_eq.2 hkind) hbinder hname, ?_⟩
    simp only [Bool.not_eq_true', Bool.or_eq_false_iff] at htype
    exact htype.2
  · rename_i hkind
    by_cases hbinder : ∃ binder, Declares source name statement binder
    · obtain ⟨binder, hdeclares⟩ := hbinder
      exact .inl ⟨binder, hdeclares, hdeclares.not_isMarkedType (by rw [isKind, hkind]; rfl)⟩
    · exact .inr ⟨beq_iff_eq.2 hkind, fun binder hdeclares => hbinder ⟨binder, hdeclares⟩⟩
  all_goals first
    | exact .inl (hown _ ‹_› rfl h)
    | cases h

/-! ## Declarations that are left -/

theorem Visits.trans {task'' : Task} {node' node'' : Node} (h : Visits s task node task' node')
    (h' : Visits s task' node' task'' node'') : Visits s task node task'' node'' := by
  induction h' with
  | here => exact h
  | child _ hmeets ih => exact ih.child hmeets

/-- What happens to a child that is no comma. -/
theorem exists_meets (hpolicy : policy kind ≠ .typeSyntax) (hchild : child ∈ children)
    (hcomma : child.isToken .comma = false)
    (haction : ∀ index, (verdict s ⟨kind, span, task, children⟩ index child).action = action) :
    Meets s task (branch kind span marks children) child action := by
  obtain ⟨index, hindex, hget⟩ := List.getElem_of_mem hchild
  have hsome : children[index]? = some child := List.getElem?_eq_some_iff.2 ⟨hindex, hget⟩
  refine ⟨kind, span, marks, children, index, rfl, hpolicy, hsome, ?_⟩
  rw [← haction index]
  exact action_eq child hsome fun _ => hcomma

theorem meets_of_childVerdict (hpolicy : policy kind ≠ .typeSyntax)
    (hkind : kind ≠ .variableDeclaration) (htask : task.isCommon)
    (hexport : task.dropsExport = false) (hchild : child ∈ children)
    (hcomma : child.isToken .comma = false) (hpart : child.isTypePart = false)
    (haction : ∀ index, (childVerdict s ⟨kind, span, task, children⟩ index child).action = action) :
    Meets s task (branch kind span marks children) child action := by
  refine exists_meets hpolicy hchild hcomma fun index => ?_
  rw [verdict_of_isCommon hkind htask (by rw [hexport, Bool.and_false]) hpart]
  exact haction index

/-- The parts of variables and patterns are kept, types apart. -/
theorem visits_part (hkind : kind = .variableStatement ∨ kind = .variableDeclarationList ∨
      kind = .objectBindingPattern ∨ kind = .arrayBindingPattern ∨ kind = .bindingElement)
    (hnode : node.isKind kind) (hchild : child ∈ node.children)
    (hcomma : child.isToken .comma = false) (hpart : child.isTypePart = false) :
    Visits s .none node .none child := by
  obtain ⟨span, marks, children, rfl⟩ := exists_of_isKind hnode
  have hplain : policy kind = .plain ∧ kind ≠ .variableDeclaration := by
    rcases hkind with rfl | rfl | rfl | rfl | rfl <;> decide
  have hmeets : Meets s .none (branch kind span marks children) child .stay := by
    refine meets_of_childVerdict (by simp [hplain.1]) hplain.2 rfl rfl hchild hcomma hpart
      fun index => ?_
    simp only [childVerdict, hplain.1]
    rcases hkind with rfl | rfl | rfl | rfl | rfl <;> rfl
  exact Visits.here.child hmeets

theorem isTypePart_of_isToken {kind : TokenKind} (h : node.isToken kind) :
    node.isTypePart = false :=
  isTypePart_of_isLeaf (isLeaf_of_isToken h)

theorem isTypePart_of_patternBinds (h : PatternBinds pattern binder) :
    pattern.isTypePart = false ∧ pattern.isToken .comma = false ∧
      pattern.isToken .exclamation = false := by
  cases h with
  | name hname =>
    exact ⟨isTypePart_of_isToken hname, isToken_of_ne hname (by simp),
      isToken_of_ne hname (by simp)⟩
  | element hpattern =>
    rcases Bool.or_eq_true_iff.1 hpattern with h | h <;>
      exact ⟨isTypePart_of_isKind h, not_isToken_of_isKind h _, not_isToken_of_isKind h _⟩

theorem visits_of_patternBinds (h : PatternBinds pattern binder) :
    Visits s .none pattern .none binder := by
  induction h with
  | name _ => exact .here
  | element hpattern helement hkind htarget hbinds ih =>
    obtain ⟨hpart, hcomma, -⟩ := isTypePart_of_patternBinds hbinds
    have hinner := visits_part (s := s) (by simp) hkind (bindingTarget?_mem htarget) hcomma hpart
    refine Visits.trans ?_ (hinner.trans ih)
    rcases Bool.or_eq_true_iff.1 hpattern with hpattern | hpattern <;>
      exact visits_part (by simp) hpattern helement (not_isToken_of_isKind hkind _)
        (isTypePart_of_isKind hkind)

/-- The pattern of a variable is visited with its declaration. -/
theorem visits_pattern (hnode : node.isKind .variableDeclaration)
    (hpattern : node.children.head? = some pattern) (hbinds : PatternBinds pattern binder) :
    Visits s .none node .none pattern := by
  obtain ⟨span, marks, children, rfl⟩ := exists_of_isKind hnode
  obtain ⟨hpart, hcomma, hmark⟩ := isTypePart_of_patternBinds hbinds
  have hmeets : Meets s .none (branch .variableDeclaration span marks children) pattern .stay := by
    refine exists_meets (by simp [policy]) (List.mem_of_mem_head? hpattern) hcomma fun index => ?_
    apply verdict_by_task (motive := fun v => v.action = .stay)
      (constantOwner?_eq_none index (.inr (by simp))) (by simp [Task.dropsExport]) hpart
    · intro lowering htask
      cases htask
    · intro plan htask
      cases htask
    · intro _
      simp only [childVerdict, policy, hmark]
      rfl
  exact Visits.here.child hmeets

/-- The name of a declaration is kept. -/
theorem meets_ownName (hkind : kind.hasOwnName) (hpolicy : policy kind ≠ .typeSyntax)
    (htask : task = .none ∨ ∃ lowering, task = .function lowering ∧ kind = .moduleDeclaration)
    (hbinder : binder ∈ children) (hname : binder.name? source = some name) :
    ∃ before after,
      Meets s task (branch kind span marks children) binder (.keep .none before after) := by
  have hlabel : binder.label = .token .identifier ∨ binder.label = .token .privateIdentifier := by
    rcases isToken_of_name? hname with h | h <;> cases binder <;>
      simp_all [isToken, token?, label]
  have hother : binder.isToken .comma = false ∧ binder.isToken .exportKeyword = false ∧
      binder.isToken .importKeyword = false ∧ binder.isTypePart = false := by
    rcases isToken_of_name? hname with h | h <;>
      exact ⟨isToken_of_ne h (by simp), isToken_of_ne h (by simp), isToken_of_ne h (by simp),
        isTypePart_of_isToken h⟩
  obtain ⟨hcomma, hexport, himport, hpart⟩ := hother
  have howner : kind ≠ .variableDeclaration := by rintro rfl; cases hkind
  rcases htask with rfl | ⟨lowering, rfl, rfl⟩
  · refine ⟨[], [], exists_meets hpolicy hbinder hcomma fun index => ?_⟩
    rw [verdict_of_isCommon howner rfl (by simp [hexport]) hpart]
    cases kind with
    | functionDeclaration | enumDeclaration | moduleDeclaration => rfl
    | classDeclaration =>
      simp only [childVerdict, policy, classAction]
      rcases hlabel with hlabel | hlabel <;> rw [hlabel] <;> rfl
    | importEqualsDeclaration =>
      simp only [childVerdict, policy, himport]
      rfl
    | interfaceDeclaration | typeAliasDeclaration => exact absurd rfl hpolicy
    | _ => cases hkind
  · have hmeets : Meets s (.function lowering) (branch .moduleDeclaration span marks children)
        binder (functionAction s.source lowering binder) := by
      refine exists_meets hpolicy hbinder hcomma fun index => ?_
      apply verdict_by_task (motive := fun v => v.action = functionAction s.source lowering binder)
        (constantOwner?_eq_none index (.inl howner)) (by simp [hexport]) hpart
      · intro lowering' htask
        cases htask
        rfl
      · intro plan htask
        cases htask
      · intro htask
        cases htask
    unfold functionAction at hmeets
    rcases hlabel with hlabel | hlabel <;> rw [hlabel] at hmeets <;> exact ⟨_, _, hmeets⟩

/-- What a part of an import has to know: lists of bindings look at each of these. -/
def bindingTask (part : Node) : Task :=
  if part.isKind .importClause || part.isKind .namedImports then .imports else .none

theorem meets_importClause (hkind : statement.isKind .importDeclaration)
    (hclause : statement.child? .importClause = some clause) :
    Meets s .imports statement clause (.keep .imports [] []) := by
  obtain ⟨span, marks, children, rfl⟩ := exists_of_isKind hkind
  have hclauseKind := List.find?_some hclause
  refine meets_of_childVerdict (by decide) (by decide) rfl rfl (List.mem_of_find?_eq_some hclause)
    (not_isToken_of_isKind hclauseKind _) (isTypePart_of_isKind hclauseKind) fun index => ?_
  simp [childVerdict, policy, NodeKind.isTypeNode, childTask, hclauseKind]

theorem meets_clausePart {part : Node} (hclause : clause.isKind .importClause)
    (hpart : part ∈ clause.children) (hcomma : part.isToken .comma = false)
    (htype : part.isTypePart = false)
    (hdrops : (if part.isKind .namedImports then dropsAllBindings s part else dropsBinding s part) =
      false) : Meets s .imports clause part (.keep (bindingTask part) [] []) := by
  obtain ⟨span, marks, children, rfl⟩ := exists_of_isKind hclause
  refine meets_of_childVerdict (by decide) (by decide) rfl rfl hpart hcomma htype fun index => ?_
  simp only [childVerdict, policy, hdrops, Bool.and_false, childTask]
  rfl

theorem meets_importSpecifier {named : Node} (hnamed : named.isKind .namedImports)
    (hpart : binder ∈ named.children) (hkind : binder.isKind .importSpecifier)
    (hdrops : dropsBinding s binder = false) :
    Meets s .imports named binder (.keep (bindingTask binder) [] []) := by
  obtain ⟨span, marks, children, rfl⟩ := exists_of_isKind hnamed
  refine meets_of_childVerdict (by decide) (by decide) rfl rfl hpart
    (not_isToken_of_isKind hkind _) (isTypePart_of_isKind hkind) fun index => ?_
  simp only [childVerdict, policy, hdrops, childTask]
  rfl

/-- A binding of an import that is not dropped is visited with its import. -/
theorem visits_binding (hkind : statement.isKind .importDeclaration)
    (hbinding : binder ∈ importBindings statement) (hdrops : dropsBinding s binder = false) :
    ∃ task, Visits s .imports statement task binder := by
  unfold importBindings at hbinding
  split at hbinding
  · cases hbinding
  rename_i clause hclause
  have hin : Visits s .imports statement .imports clause :=
    Visits.here.child (meets_importClause hkind hclause)
  have hclauseKind := List.find?_some hclause
  obtain ⟨part, hpart, hbinding⟩ := List.mem_flatMap.1 hbinding
  split at hbinding
  · rename_i hlabel
    obtain rfl := List.mem_singleton.1 hbinding
    have hleaf : binder.isToken .identifier := by
      cases binder <;> simp_all [label, isToken, token?]
    have hother : binder.isKind .namedImports = false := by
      cases binder <;> simp_all [label, isKind, kind?]
    refine ⟨_, hin.child (meets_clausePart hclauseKind hpart (isToken_of_ne hleaf (by simp))
      (isTypePart_of_isToken hleaf) ?_)⟩
    rw [hother, if_neg Bool.false_ne_true, hdrops]
  · rename_i hlabel
    obtain rfl := List.mem_singleton.1 hbinding
    have hspace : binder.isKind .namespaceImport := by
      cases binder <;> simp_all [label, isKind, kind?]
    have hother : binder.isKind .namedImports = false := by
      cases binder <;> simp_all [label, isKind, kind?]
    refine ⟨_, hin.child (meets_clausePart hclauseKind hpart (not_isToken_of_isKind hspace _)
      (isTypePart_of_isKind hspace) ?_)⟩
    rw [hother, if_neg Bool.false_ne_true, hdrops]
  · rename_i hlabel
    obtain ⟨hmem, hspecifier⟩ := List.mem_filter.1 hbinding
    have hnamed : part.isKind .namedImports := by
      cases part <;> simp_all [label, isKind, kind?]
    have hsome : dropsAllBindings s part = false := by
      have hall : (part.children.filter (isKind .importSpecifier)).all (dropsBinding s) = false :=
        List.all_eq_false.2 ⟨binder, hbinding, by simp [hdrops]⟩
      rw [dropsAllBindings, hall, Bool.and_false]
    have hmeets := meets_clausePart hclauseKind hpart (not_isToken_of_isKind hnamed _)
      (isTypePart_of_isKind hnamed) (by rw [hnamed, if_pos rfl, hsome])
    have htask : bindingTask part = .imports := by simp [bindingTask, hnamed]
    rw [htask] at hmeets
    exact ⟨_, (hin.child hmeets).child (meets_importSpecifier hnamed hmem hspecifier hdrops)⟩
  · cases hbinding

/-! ## Statements that are left -/

theorem LeftDeclared.of_keep {before after : List Inserted}
    (hmeets : Meets s .none root statement (.keep task before after))
    (hvisits : Visits s task statement task' binder) (w : Walk) :
    LeftDeclared (visit s .none w root).node statement binder name := by
  obtain ⟨left, hmem, hface, part, hpart, hpartFace⟩ := hmeets.exists_left hvisits w
  exact .kept hmem hface hpart hpartFace

/-- At the top of a file the rule for statements counts. -/
theorem exists_meets_statement (s : Setting) (hroot : root.isKind .sourceFile)
    (hmem : statement ∈ root.children) (htoken : statement.token? = none)
    (hpart : statement.isTypePart = false) :
    ∃ scope : Scope, scope.task = .none ∧
      Meets s .none root statement (statementVerdict s scope statement).action := by
  obtain ⟨span, marks, children, rfl⟩ := exists_of_isKind hroot
  refine ⟨⟨.sourceFile, span, .none, children⟩, rfl,
    meets_of_childVerdict (by decide) (by decide) rfl rfl hmem (by simp [isToken, htoken]) hpart
      fun index => ?_⟩
  simp [childVerdict, policy, htoken]

theorem keepStatement_eq_stay (htask : scope.task = .none) (s : Setting) (statement : Node) :
    keepStatement s scope statement = .stay := by
  simp [keepStatement, exportOwner?, htask]

theorem exists_enumText {indent unit text : String}
    (h : enumText? source statement indent unit = some text)
    (hname : declaredName? source statement = some name) :
    ∃ exported values, text = enumText name exported values indent unit := by
  obtain ⟨enum, values, hvalues, rfl⟩ := enumText?_eq_some h
  obtain rfl : enum = name := Option.some.inj (hvalues.name.symm.trans hname)
  exact ⟨_, values, rfl⟩

/-- A declaration with a name of its own stays, as a variable and a function or as the text of an
enum at most, unless nothing of it is there at run time or it is an import that only types use. -/
theorem statementVerdict_of_hasOwnName (htask : scope.task = .none) (hown : kind.hasOwnName)
    (hkept : isTypeOnlyStatement (branch kind span marks children) = false)
    (hdeclared : declaredName? s.source (branch kind span marks children) = some name)
    (hused : kind = .importEqualsDeclaration → s.usage.isTypeOnlyBinding name = false) :
    policy kind ≠ .typeSyntax ∧
    ((statementVerdict s scope (branch kind span marks children)).action = .stay ∨
      kind = .moduleDeclaration ∧ (∃ lowering,
        (statementVerdict s scope (branch kind span marks children)).action =
          .keep (.function lowering) [] []) ∨
      kind = .enumDeclaration ∧ ∃ piece exported values indent unit,
        (statementVerdict s scope (branch kind span marks children)).action = .replace piece ∧
          piece.text = enumText name exported values indent unit) := by
  rw [statementVerdict_of_value hkept]
  cases kind with
  | functionDeclaration | classDeclaration =>
    exact ⟨by decide, .inl (keepStatement_eq_stay htask s _)⟩
  | enumDeclaration =>
    refine ⟨by decide, ?_⟩
    simp only [valueVerdict, kind?, enumVerdict]
    split
    · rename_i text htext
      obtain ⟨exported, values, rfl⟩ := exists_enumText htext hdeclared
      exact .inr (.inr ⟨trivial, _, exported, values, _, _, rfl, rfl⟩)
    · exact .inl rfl
  | moduleDeclaration =>
    refine ⟨by decide, ?_⟩
    simp only [valueVerdict, kind?, namespaceVerdict, Node.children,
      (Bool.or_eq_false_iff.1 hkept).2, Bool.false_eq_true, ↓reduceIte]
    split
    · exact .inr (.inl ⟨trivial, _, rfl⟩)
    · exact .inl rfl
  | importEqualsDeclaration =>
    refine ⟨by decide, .inl ?_⟩
    simp [valueVerdict, kind?, hdeclared, hused rfl]
  | interfaceDeclaration | typeAliasDeclaration => cases hkept
  | _ => cases hown

section Statements

variable (hroot : root.isKind .sourceFile) (hmem : statement ∈ root.children)
  (hkept : isTypeOnlyStatement statement = false)

include hroot hmem hkept

/-- A declaration that stays keeps its name. -/
theorem leftDeclared_own (hkind : statement.kind?.any NodeKind.hasOwnName)
    (hbinder : binder ∈ statement.children) (hname : binder.name? s.source = some name)
    (hdeclared : declaredName? s.source statement = some name)
    (hused : isImport statement → s.usage.isTypeOnlyBinding name = false) (w : Walk) :
    LeftDeclared (visit s .none w root).node statement binder name := by
  obtain ⟨kind, hsome, hown⟩ := (Option.any_eq_true _ _).1 hkind
  obtain ⟨span, marks, children, rfl⟩ := exists_of_isKind (beq_iff_eq.2 hsome)
  have hpart : (branch kind span marks children).isTypePart = false := by
    cases kind <;> first | rfl | cases hown
  obtain ⟨scope, htask, hmeets⟩ := exists_meets_statement s hroot hmem rfl hpart
  obtain ⟨hpolicy, hstay | ⟨rfl, lowering, hfunction⟩ | ⟨rfl, piece, exported, values, indent, unit,
    hpiece, htext⟩⟩ :=
    statementVerdict_of_hasOwnName htask hown hkept hdeclared fun h => hused (by rw [h]; rfl)
  · rw [hstay] at hmeets
    obtain ⟨before, after, hname⟩ := meets_ownName hown hpolicy (.inl rfl) hbinder hname
    exact .of_keep hmeets (Visits.here.child hname) w
  · rw [hfunction] at hmeets
    obtain ⟨before, after, hname⟩ := meets_ownName hown hpolicy (.inr ⟨_, rfl, rfl⟩) hbinder hname
    exact .of_keep hmeets (Visits.here.child hname) w
  · rw [hpiece] at hmeets
    obtain ⟨left, hleft, hleftText⟩ := hmeets.exists_piece w
    exact .asVariable rfl hleft (hleftText.trans htext)

/-- An import keeps the bindings that are no types. -/
theorem leftDeclared_imported (hkind : statement.isKind .importDeclaration)
    (hbinding : binder ∈ importBindings statement)
    (hname : bindingName? s.source binder = some name)
    (hvalue : isMarkedType binder = false) (hused : s.usage.isTypeOnlyBinding name = false)
    (w : Walk) :
    LeftDeclared (visit s .none w root).node statement binder name := by
  have hdrops : dropsBinding s binder = false := by simp [dropsBinding, hname, hvalue, hused]
  obtain ⟨span, marks, children, rfl⟩ := exists_of_isKind hkind
  obtain ⟨scope, -, hmeets⟩ := exists_meets_statement s hroot hmem rfl rfl
  have hall : (importBindings (branch .importDeclaration span marks children)).all
      (dropsBinding s) = false := List.all_eq_false.2 ⟨binder, hbinding, by simp [hdrops]⟩
  have haction : (statementVerdict s scope (branch .importDeclaration span marks children)).action =
      .keep .imports [] [] := by
    simp only [statementVerdict_of_value hkept, valueVerdict, kind?, importAction,
      isTypeImport, child?, Node.children, (Bool.or_eq_false_iff.1 hkept).2,
      List.isEmpty_eq_false_iff.2 (List.ne_nil_of_mem hbinding), hall]
    rfl
  rw [haction] at hmeets
  obtain ⟨task, hvisits⟩ := visits_binding hkind hbinding hdrops
  exact .of_keep hmeets hvisits w

/-- A variable keeps the names of its pattern. -/
theorem leftDeclared_bound {list declaration : Node}
    (hkind : statement.isKind .variableStatement) (hlist : list ∈ statement.children)
    (hlistKind : list.isKind .variableDeclarationList)
    (hdeclaration : declaration ∈ list.children)
    (hdeclarationKind : declaration.isKind .variableDeclaration)
    (hpattern : declaration.children.head? = some pattern) (hbinds : PatternBinds pattern binder)
    (w : Walk) : LeftDeclared (visit s .none w root).node statement binder name := by
  have hvisits : Visits s .none statement .none binder :=
    (visits_part (by simp) hkind hlist (not_isToken_of_isKind hlistKind _)
      (isTypePart_of_isKind hlistKind)).trans <|
    (visits_part (by simp) hlistKind hdeclaration (not_isToken_of_isKind hdeclarationKind _)
      (isTypePart_of_isKind hdeclarationKind)).trans <|
    (visits_pattern hdeclarationKind hpattern hbinds).trans (visits_of_patternBinds hbinds)
  obtain ⟨span, marks, children, rfl⟩ := exists_of_isKind hkind
  obtain ⟨scope, htask, hmeets⟩ := exists_meets_statement s hroot hmem rfl rfl
  have hstay : (valueVerdict s scope (branch .variableStatement span marks children)).action =
      .stay :=
    keepStatement_eq_stay htask s _
  rw [statementVerdict_of_value hkept, hstay] at hmeets
  exact .of_keep hmeets hvisits w

/-- What a statement declares is left, unless nothing of the statement is there at run time, or it
is marked as a type or an import that only types use. -/
theorem Declares.left (h : Declares s.source name statement binder)
    (hvalue : isMarkedType binder = false)
    (hused : isImport statement → s.usage.isTypeOnlyBinding name = false) (w : Walk) :
    LeftDeclared (visit s .none w root).node statement binder name := by
  cases h with
  | own hkind hchildren hbefore hname =>
    have hbinder : binder ∈ statement.children := by simp [hchildren]
    have hdeclared : declaredName? s.source statement = some name :=
      List.findSome?_eq_some_iff.2 ⟨_, _, _, hchildren, hname, hbefore⟩
    exact leftDeclared_own hroot hmem hkept hkind hbinder hname hdeclared hused w
  | imported hkind hbinding hname =>
    have hused := hused (by simp [isImport, hkind])
    exact leftDeclared_imported hroot hmem hkept hkind hbinding hname hvalue hused w
  | bound hkind hlist hlistKind hdeclaration hdeclarationKind hpattern hbinds =>
    exact leftDeclared_bound hroot hmem hkept hkind hlist hlistKind hdeclaration hdeclarationKind
      hpattern hbinds w

end Statements

end Erasure

end Untype
