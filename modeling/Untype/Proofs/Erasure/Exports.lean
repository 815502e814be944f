-- Exports of names of the file: one that is kept has a declaration that
-- counts as a value, and the name is left where such a declaration is.
import Untype.Proofs.Erasure.Declarations

namespace Untype

open Untype.Node

namespace Erasure

variable {task : Task} {before after : List Inserted} {named specifier : Node} {reexport : Bool}
  {text : String}

/-- The walk keeps a specifier with this name of the file. It belongs to an export without `from`
that stands in a list of statements. -/
inductive KeepsExport (s : Setting) (root specifier : Node) (name : String) : Prop where
  | intro {task task' task'' task''' : Task} {list statement named token : Node}
    {before after before' after' before'' after'' : List Inserted} :
    Visits s .none root task list → list.kind?.any (policy · == .statements) →
    Meets s task list statement (.keep task' before after) →
    statement.isKind .exportDeclaration → statement.hasToken .fromKeyword = false →
    statement.child? .namedExports = some named →
    Meets s task' statement named (.keep task'' before' after') →
    Meets s task'' named specifier (.keep task''' before'' after'') →
    specifier.isKind .exportSpecifier →
    specifier.children.find? (fun child => !child.isToken .typeKeyword) = some token →
    token.isToken .identifier → token.text s.source = name →
    KeepsExport s root specifier name

variable {s : Setting} {source name : String} {root statement binder node child : Node}

/-! ## Specifiers that are kept -/

theorem name?_of_isToken (htoken : node.isToken .identifier) (htext : node.text source = name) :
    node.name? source = some name := by
  rw [name?, beq_iff_eq.1 htoken, htext]

/-- In a list of statements the rule for statements counts. Fields can be assigned behind one. -/
theorem verdict_statement (s : Setting) (scope : Scope) (index : Nat)
    (hpolicy : policy scope.kind = .statements)
    (htask : ∀ lowering, scope.task ≠ .function lowering) (htoken : statement.token? = none)
    (hpart : statement.isTypePart = false) :
    ∃ pieces, (verdict s scope index statement).action =
      (statementVerdict s scope statement).action.followedBy pieces := by
  have hother : scope.kind ≠ .variableDeclaration := by
    intro hkind
    rw [hkind] at hpolicy
    cases hpolicy
  have hchild : childVerdict s scope index statement = statementVerdict s scope statement := by
    simp [childVerdict, hpolicy, htoken]
  rw [← hchild]
  apply verdict_by_task (motive := fun v => ∃ pieces, v.action =
      (childVerdict s scope index statement).action.followedBy pieces)
    (constantOwner?_eq_none index (.inl hother)) (by simp [isToken, htoken]) hpart
  · intro lowering hfunction
    exact absurd hfunction (htask lowering)
  · intro plan _
    by_cases hindex : (index == plan.position)
    · rw [if_pos hindex]
      exact ⟨_, rfl⟩
    · rw [if_neg hindex]
      exact ⟨[], (followedBy_nil _).symm⟩
  · intro _
    exact ⟨[], (followedBy_nil _).symm⟩

/-- In a list of statements an export that is kept is kept by the rule for exports. -/
theorem Meets.exportAction {task' : Task} {list : Node}
    (hlist : list.kind?.any (policy · == .statements)) (htask : task.Belongs list)
    (hkind : statement.isKind .exportDeclaration)
    (h : Meets s task list statement (.keep task' before after)) :
    ∃ before' after', Erasure.exportAction s statement = .keep task' before' after' := by
  obtain ⟨kind, span, marks, children, index, rfl, haction | ⟨-, haction⟩⟩ := h.verdict
  · have hpolicy : policy kind = .statements := by simpa [kind?] using hlist
    have hother : ∀ lowering, task ≠ .function lowering := by
      intro lowering hfunction
      have hmodule := htask.function lowering hfunction
      obtain rfl : kind = .moduleDeclaration := by simpa [isKind, kind?] using hmodule
      cases hpolicy
    obtain ⟨pieces, hverdict⟩ := verdict_statement s ⟨kind, span, task, children⟩ index hpolicy
      hother (token?_of_isKind hkind) (isTypePart_of_isKind hkind)
    rw [hverdict] at haction
    simp only [statementVerdict, beq_iff_eq.1 hkind] at haction
    split at haction
    · cases haction
    · cases hexport : Erasure.exportAction s statement with
      | keep task'' before' after' =>
        rw [hexport] at haction
        cases haction
        exact ⟨_, _, rfl⟩
      | replace piece | remove removal => rw [hexport] at haction; cases haction
  · cases haction

/-- An export whose names are looked at has a task for them. -/
theorem task_of_exportAction (hnamed : statement.child? .namedExports = some named)
    (hmem : specifier ∈ named.children) (hkind : specifier.isKind .exportSpecifier)
    (h : Erasure.exportAction s statement = .keep task before after) :
    task = .exports (statement.hasToken .fromKeyword) := by
  unfold Erasure.exportAction at h
  rw [hnamed] at h
  split at h
  · cases h
  dsimp only at h
  split at h
  · rename_i hempty
    have hfilter := List.mem_filter.2 ⟨hmem, hkind⟩
    rw [List.isEmpty_iff.1 hempty] at hfilter
    cases hfilter
  split at h
  · cases h
  · cases h
    rfl

theorem Meets.task_named (hstatement : statement.isKind .exportDeclaration)
    (hnamed : named.isKind .namedExports)
    (h : Meets s (.exports reexport) statement named (.keep task before after)) :
    task = .exports reexport := by
  obtain ⟨kind, span, marks, children, index, rfl, haction | ⟨-, haction⟩⟩ := h.verdict
  · obtain rfl : kind = .exportDeclaration := by simpa [isKind, kind?] using hstatement
    rw [verdict_of_isCommon (by simp) rfl (by simp [not_isToken_of_isKind hnamed _])
      (isTypePart_of_isKind hnamed)] at haction
    simp [childVerdict, policy, NodeKind.isTypeNode, childTask, hnamed] at haction
    exact haction.1
  · cases haction

theorem Meets.not_dropsSpecifier (hnamed : named.isKind .namedExports)
    (hspecifier : specifier.isKind .exportSpecifier)
    (h : Meets s (.exports reexport) named specifier (.keep task before after)) :
    dropsSpecifier s reexport specifier = false := by
  obtain ⟨kind, span, marks, children, index, rfl, haction | ⟨-, haction⟩⟩ := h.verdict
  · obtain rfl : kind = .namedExports := by simpa [isKind, kind?] using hnamed
    rw [verdict_of_isCommon (by simp) rfl (by simp [not_isToken_of_isKind hspecifier _])
      (isTypePart_of_isKind hspecifier)] at haction
    simp only [childVerdict, policy] at haction
    cases hdrops : dropsSpecifier s reexport specifier with
    | false => rfl
    | true => simp [hdrops] at haction
  · cases haction

theorem KeepsExport.not_isTypeOnlyDeclaration (hregular : root.Regular text)
    (h : KeepsExport s root specifier name) : s.usage.isTypeOnlyDeclaration name = false := by
  obtain ⟨hvisits, hlist, hmeets, hexport, hfrom, hchild, hnamed, hspecifier, hkind, hfind, htoken,
    htext⟩ := h
  have hbraces := List.find?_some hchild
  obtain ⟨before, after, haction⟩ := hmeets.exportAction hlist (hvisits.belongs hregular) hexport
  obtain rfl := task_of_exportAction hchild hspecifier.mem hkind haction
  obtain rfl := hnamed.task_named hexport hbraces
  rw [hfrom] at hspecifier
  have hkept := hspecifier.not_dropsSpecifier hbraces hkind
  have hname : (Option.some _).bind (Node.name? s.source) = some name :=
    name?_of_isToken htoken htext
  rw [dropsSpecifier, hkind, hfind, hname] at hkept
  simp only [Bool.true_and, Bool.not_false, Option.any_some, Bool.or_eq_false_iff] at hkept
  exact hkept.2

theorem KeepsExport.isUsed (hregular : root.Regular text) (hroot : root.isImplements = false)
    (h : KeepsExport s root specifier name) :
    .value name ∈ uses s.source false root ∨ root.Overlooked specifier := by
  obtain ⟨hvisits, -, hmeets, -, -, -, hnamed, hspecifier, hkind, hfind, htoken, htext⟩ := h
  have hvisited := ((hvisits.child hmeets).child hnamed).child hspecifier
  refine (hvisited.uses_subset hregular hroot).imp_left fun hsubset => hsubset ?_
  obtain ⟨span, marks, children, rfl⟩ := exists_of_isKind hkind
  exact uses_of_mem (by simp) (by simp) rfl (List.mem_of_find?_eq_some hfind)
    (uses_name htoken htext)

theorem exists_declaredValue {options : Options} (hmem : statement ∈ root.children)
    (htype : name ∈ declaredTypes source statement)
    (hother : (Usage.ofTree options source root).isTypeOnlyDeclaration name = false) :
    ∃ statement ∈ root.children, name ∈ declaredValues source statement := by
  have htypes : name ∈ (Usage.ofTree options source root).declaredTypes :=
    List.mem_flatMap.2 ⟨statement, hmem, htype⟩
  rw [Usage.isTypeOnlyDeclaration, List.contains_iff_mem.2 htypes, Bool.true_and,
    Bool.not_eq_false', List.contains_iff_mem] at hother
  exact List.mem_flatMap.1 hother

theorem isTypeOnlyBinding_of_isUsed (options : Options)
    (h : .value name ∈ uses source false root) :
    (Usage.ofTree options source root).isTypeOnlyBinding name = false := by
  have hvalue : name ∈ (Usage.ofTree options source root).valueNames :=
    List.mem_filterMap.2 ⟨_, h, rfl⟩
  rw [Usage.isTypeOnlyBinding, List.contains_iff_mem.2 hvalue, Bool.not_true, Bool.and_false]

theorem KeepsExport.exists_left (h : KeepsExport s root specifier name) (w : Walk) :
    ∃ left ∈ (visit s .none w root).node.descendants, left.face = specifier.face := by
  obtain ⟨hvisits, -, hmeets, -, -, -, hnamed, hspecifier, -, -, -, -⟩ := h
  obtain ⟨w', hreaches⟩ := (((hvisits.child hmeets).child hnamed).child hspecifier).reaches w
  exact ⟨_, hreaches.mem_descendants, face_visit s _ w' specifier⟩

/-! ## Exports at the top -/

/-- An export at the top of a file, with no `type` and no `from`, has a specifier with this name
that no rule drops. -/
abbrev ExportsName (s : Setting) (name : String) (root : Node) : Prop :=
  ∃ statement ∈ root.children, statement.isKind .exportDeclaration ∧
    isTypeOnlyStatement statement = false ∧ statement.hasToken .fromKeyword = false ∧
    ∃ named ∈ statement.child? .namedExports, ∃ specifier ∈ named.children,
      specifier.isKind .exportSpecifier ∧ dropsSpecifier s false specifier = false ∧
        ∃ token ∈ specifier.children.find? fun child => !child.isToken .typeKeyword,
          token.isToken .identifier ∧ token.text s.source = name

theorem meets_namedExports (hkind : statement.isKind .exportDeclaration)
    (hnamed : statement.child? .namedExports = some named) :
    Meets s (.exports reexport) statement named (.keep (.exports reexport) [] []) := by
  obtain ⟨span, marks, children, rfl⟩ := exists_of_isKind hkind
  have hbraces := List.find?_some hnamed
  refine meets_of_childVerdict (by decide) (by decide) rfl rfl (List.mem_of_find?_eq_some hnamed)
    (not_isToken_of_isKind hbraces _) (isTypePart_of_isKind hbraces) fun index => ?_
  simp [childVerdict, policy, NodeKind.isTypeNode, childTask, hbraces]

theorem meets_exportSpecifier (hnamed : named.isKind .namedExports)
    (hspecifier : specifier ∈ named.children) (hkind : specifier.isKind .exportSpecifier)
    (hdrops : dropsSpecifier s reexport specifier = false) :
    Meets s (.exports reexport) named specifier .stay := by
  obtain ⟨span, marks, children, rfl⟩ := exists_of_isKind hnamed
  have hother : specifier.isKind .namedExports = false := by
    rw [isKind, beq_iff_eq.1 hkind]
    rfl
  refine meets_of_childVerdict (by decide) (by decide) rfl rfl hspecifier
    (not_isToken_of_isKind hkind _) (isTypePart_of_isKind hkind) fun index => ?_
  simp only [childVerdict, policy, hdrops, childTask, hother]
  rfl

theorem meets_export (hroot : root.isKind .sourceFile) (hmem : statement ∈ root.children)
    (hkind : statement.isKind .exportDeclaration)
    (hkept : isTypeOnlyStatement statement = false)
    (hnamed : statement.child? .namedExports = some named) (hspecifier : specifier ∈ named.children)
    (hspecifierKind : specifier.isKind .exportSpecifier)
    (hdrops : dropsSpecifier s (statement.hasToken .fromKeyword) specifier = false) :
    Meets s .none root statement (.keep (.exports (statement.hasToken .fromKeyword)) [] []) := by
  obtain ⟨span, marks, children, rfl⟩ := exists_of_isKind hkind
  obtain ⟨scope, -, hmeets⟩ := exists_meets_statement s hroot hmem rfl rfl
  have hmarked : (branch .exportDeclaration span marks children).children[1]?.any
      (isToken .typeKeyword) = false := (Bool.or_eq_false_iff.1 hkept).2
  have hfilter := List.mem_filter.2 ⟨hspecifier, hspecifierKind⟩
  have hall := List.all_eq_false.2 ⟨specifier, hfilter, Bool.eq_false_iff.1 hdrops⟩
  have haction : (statementVerdict s scope (branch .exportDeclaration span marks children)).action =
      .keep (.exports ((branch .exportDeclaration span marks children).hasToken .fromKeyword)) []
        [] := by
    simp only [statementVerdict_of_value hkept, valueVerdict, kind?, exportAction, hmarked,
      hnamed, hall, List.isEmpty_eq_false_iff.2 (List.ne_nil_of_mem hfilter)]
    rfl
  rwa [haction] at hmeets

theorem exists_keepsExport (hroot : root.isKind .sourceFile)
    (h : ExportsName s name root) : ∃ specifier, KeepsExport s root specifier name := by
  obtain ⟨statement, hmem, hkind, hkept, hfrom, named, hnamed, specifier, hspecifier,
    hspecifierKind, hdrops, token, htoken, hidentifier, htext⟩ := h
  have hlist : root.kind?.any (policy · == .statements) := by
    rw [beq_iff_eq.1 hroot]
    rfl
  have hexport := meets_export hroot hmem hkind hkept hnamed hspecifier hspecifierKind
    (by rw [hfrom, hdrops])
  have hkeeps := meets_exportSpecifier (List.find?_some hnamed) hspecifier hspecifierKind hdrops
  rw [hfrom] at hexport
  exact ⟨specifier, .intro .here hlist hexport hkind hfrom hnamed (meets_namedExports hkind hnamed)
    hkeeps hspecifierKind htoken hidentifier htext⟩

theorem exists_declares_of_kind {kind : NodeKind} (hkind : kind ≠ .variableStatement)
    (hstatement : statement.isKind kind) (hvalue : name ∈ declaredValues source statement) :
    ∃ binder, Declares source name statement binder := by
  rcases exists_declares hvalue with ⟨binder, hdeclares, -⟩ | ⟨hvariable, -⟩
  · exact ⟨binder, hdeclares⟩
  · rw [isKind, beq_iff_eq.1 hstatement] at hvariable
    exact absurd (by simpa using hvariable) hkind

end Erasure

open Erasure

variable {variant : Variant} {file text : String} {tree : SyntaxTree}

/-- An export of a name of the file that is kept is left, and the name counts as a value somewhere
at the top. Where it does, the part that declares it is left, unless nothing of the statement is
there at run time, the name is only a key or a default in patterns, or it is imported and the export
stands where uses are not looked for. -/
theorem SyntaxTree.erase_exports_declared
    (hparse : SyntaxTree.parseAs variant file text = .ok tree) {options : Options}
    {specifier : Node} {name : String}
    (hkept : KeepsExport (.ofTree options text tree.root) tree.root specifier name)
    (hdeclared : ∃ statement ∈ tree.root.children, ∃ binder, Declares text name statement binder) :
    (∃ left ∈ (tree.erase options).tree.root.descendants, left.face = specifier.face) ∧
    (∃ statement ∈ tree.root.children, name ∈ declaredValues text statement) ∧
    ∀ statement ∈ tree.root.children, name ∈ declaredValues text statement →
      (∃ binder, Declares text name statement binder ∧
        LeftDeclared (tree.erase options).tree.root statement binder name) ∨
      isTypeOnlyStatement statement = true ∨
      (statement.isKind .variableStatement = true ∧
        ∀ binder, ¬ Declares text name statement binder) ∨
      (isImport statement = true ∧ tree.root.Overlooked specifier) := by
  obtain ⟨rfl, -, statements, token, hroot, -⟩ := SyntaxTree.parseAs_tiles hparse
  have hregular := SyntaxTree.parseAs_regular hparse
  have hfile : tree.root.isKind .sourceFile = true := by rw [hroot]; rfl
  have hplain : tree.root.isImplements = false := by rw [hroot]; rfl
  refine ⟨hkept.exists_left {}, ?_, fun statement hmem hvalue => ?_⟩
  · obtain ⟨statement, hmem, binder, hdeclares⟩ := hdeclared
    rcases hdeclares.counts with htype | hvalue
    · exact exists_declaredValue hmem htype (hkept.not_isTypeOnlyDeclaration hregular)
    · exact ⟨statement, hmem, hvalue⟩
  · rcases exists_declares hvalue with ⟨binder, hdeclares, hmarked⟩ | hpattern
    · have hused : (isImport statement = true →
          (Usage.ofTree options tree.source tree.root).isTypeOnlyBinding name = false) ∨
          isImport statement = true ∧ tree.root.Overlooked specifier := by
        by_cases himport : isImport statement = true
        · refine (hkept.isUsed hregular hplain).imp (fun huse _ => ?_) fun hover => ⟨himport, hover⟩
          exact isTypeOnlyBinding_of_isUsed options huse
        · exact .inl fun h => absurd h himport
      cases hphantom : isTypeOnlyStatement statement with
      | true => exact .inr (.inl rfl)
      | false =>
        rcases hused with hused | hoverlooked
        · exact .inl ⟨binder, hdeclares, hdeclares.left hfile hmem hphantom hmarked hused {}⟩
        · exact .inr (.inr (.inr hoverlooked))
    · exact .inr (.inr (.inl hpattern))

/-- A class with the name of an interface. -/
def mergedNames : String := "interface C \x7b\x7d class C \x7b\x7d export \x7bC\x7d"

/-- The class is left that shares its name with an interface. -/
theorem SyntaxTree.erase_exports_declared_class :
    ∃ tree specifier, SyntaxTree.parseAs .standard "a.ts" mergedNames = .ok tree ∧
      KeepsExport (.ofTree {} mergedNames tree.root) tree.root specifier "C" ∧
      (∃ left ∈ (tree.erase {}).tree.root.descendants, left.face = specifier.face) ∧
      ∃ statement ∈ tree.root.children, statement.isKind .classDeclaration = true ∧
        ∃ binder, LeftDeclared (tree.erase {}).tree.root statement binder "C" := by
  obtain ⟨tree, hparse, hfile, hexports, ⟨statement, hmem, hkind, hvalue⟩, hphantom⟩ : ∃ tree,
      SyntaxTree.parseAs .standard "a.ts" mergedNames = .ok tree ∧ tree.root.isKind .sourceFile ∧
      ExportsName (.ofTree {} mergedNames tree.root) "C" tree.root ∧
      (∃ statement ∈ tree.root.children, statement.isKind .classDeclaration ∧
        "C" ∈ declaredValues mergedNames statement) ∧ ∀ statement ∈ tree.root.children,
        isTypeOnlyStatement statement = statement.isKind .interfaceDeclaration :=
    SyntaxTree.exists_checked (by decide +kernel)
  obtain ⟨specifier, hkept⟩ := exists_keepsExport hfile hexports
  obtain ⟨binder, hbinder⟩ := exists_declares_of_kind (by decide) hkind hvalue
  obtain ⟨hleft, -, hall⟩ :=
    SyntaxTree.erase_exports_declared hparse hkept ⟨statement, hmem, binder, hbinder⟩
  have hstatement := beq_iff_eq.1 hkind
  refine ⟨tree, specifier, hparse, hkept, hleft, statement, hmem, hkind, ?_⟩
  rcases hall statement hmem hvalue with ⟨binder, -, hdeclared⟩ | htype |
    ⟨hvariable, -⟩ | ⟨himport, -⟩
  · exact ⟨binder, hdeclared⟩
  · rw [hphantom statement hmem, isKind, hstatement] at htype
    cases htype
  · rw [isKind, hstatement] at hvariable
    cases hvariable
  · rw [isImport, isKind, isKind, hstatement] at himport
    cases himport

/-- A namespace of types whose name is exported. -/
def namespaceOfTypes : String :=
  "namespace N \x7b export interface I \x7b\x7d \x7d\nexport \x7b N \x7d"

/-- An export is kept whose name only a namespace of types declares. -/
theorem SyntaxTree.erase_exports_removed_namespace :
    ∃ tree specifier, SyntaxTree.parseAs .standard "a.ts" namespaceOfTypes = .ok tree ∧
      KeepsExport (.ofTree {} namespaceOfTypes tree.root) tree.root specifier "N" ∧
      (∃ statement ∈ tree.root.children, ∃ binder, Declares namespaceOfTypes "N" statement binder) ∧
      (tree.erase {}).tree.text = "export \x7b N \x7d" := by
  obtain ⟨tree, hparse, hfile, hexports, ⟨statement, hmem, hkind, hvalue⟩, htext⟩ : ∃ tree,
      SyntaxTree.parseAs .standard "a.ts" namespaceOfTypes = .ok tree ∧
      tree.root.isKind .sourceFile ∧
      ExportsName (.ofTree {} namespaceOfTypes tree.root) "N" tree.root ∧
      (∃ statement ∈ tree.root.children, statement.isKind .moduleDeclaration ∧
        "N" ∈ declaredValues namespaceOfTypes statement) ∧
      (tree.erase {}).tree.text = "export \x7b N \x7d" :=
    SyntaxTree.exists_checked (by decide +kernel)
  obtain ⟨specifier, hkept⟩ := exists_keepsExport hfile hexports
  exact ⟨tree, specifier, hparse, hkept,
    ⟨statement, hmem, exists_declares_of_kind (by decide) hkind hvalue⟩, htext⟩

end Untype
