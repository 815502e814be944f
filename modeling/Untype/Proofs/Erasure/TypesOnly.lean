-- The judgement that nothing of a statement is there at run time agrees with
-- what happens to the statement, and with what happens to all that stands in a
-- namespace that goes as a whole.
import Untype.Proofs.Erasure.Links

namespace Untype.Erasure

open Node

variable {module nested inner statement : Node} {passes : Node → Bool}

/-- The statement stands in the body of the namespace. -/
def HasMember (module statement : Node) : Prop :=
  ∃ body, module.child? .moduleBlock = some body ∧ statement ∈ body.children ∧
    statement.token? = none

/-- The statement stands in the body of the namespace, or of one in it that can be passed. -/
inductive Holds (passes : Node → Bool) (module : Node) : Node → Prop where
  | member {statement : Node} : HasMember module statement → Holds passes module statement
  | inside {nested statement : Node} : Holds passes module nested → passes nested →
    HasMember nested statement → Holds passes module statement

theorem Holds.of_member (hmember : HasMember module nested) (hpasses : passes nested)
    (h : Holds passes nested inner) : Holds passes module inner := by
  induction h with
  | member h => exact .inside (.member hmember) hpasses h
  | inside _ hpasses' h ih => exact .inside ih hpasses' h

/-- A namespace that is not declared to be somewhere else. -/
def isOwnNamespace (node : Node) : Bool :=
  node.isKind .moduleDeclaration && !node.hasToken .declareKeyword

/-! ## The judgement -/

theorem areTypeOnly_iff (statements : List Node) : areTypeOnly statements ↔
    ∀ member ∈ statements, member.token? = none → isTypeOnlyStatement member := by
  induction statements with
  | nil => simp [areTypeOnly]
  | cons child rest ih =>
    rw [areTypeOnly, Bool.and_eq_true, ih, List.forall_mem_cons]
    cases child.token? <;> simp

theorem isTypeOnlyModule_iff (children : List Node) : isTypeOnlyModule children ↔
    ∀ body, children.find? (isKind .moduleBlock) = some body →
      ∀ member ∈ body.children, member.token? = none → isTypeOnlyStatement member := by
  induction children with
  | nil => simp [isTypeOnlyModule]
  | cons child rest ih =>
    by_cases hblock : child.isKind .moduleBlock
    · obtain ⟨span, marks, statements, rfl⟩ := exists_of_isKind hblock
      simpa [isTypeOnlyModule, List.find?_cons_of_pos hblock, Node.children] using
        areTypeOnly_iff statements
    · rw [List.find?_cons_of_neg hblock, ← ih, isTypeOnlyModule]
      rintro span marks statements rfl
      exact hblock rfl

theorem isTypeOnlyModule_iff_members : isTypeOnlyModule module.children ↔
    ∀ member, HasMember module member → isTypeOnlyStatement member := by
  rw [isTypeOnlyModule_iff]
  constructor
  · rintro h member ⟨body, hbody, hmember, htoken⟩
    exact h body hbody member hmember htoken
  · exact fun h body hbody member hmember htoken => h member ⟨body, hbody, hmember, htoken⟩

theorem isTypeOnlyStatement_of_isOwnNamespace (h : isOwnNamespace statement) :
    isTypeOnlyStatement statement = isTypeOnlyModule statement.children := by
  obtain ⟨hkind, hdeclare⟩ := Bool.and_eq_true_iff.1 h
  obtain ⟨span, marks, children, rfl⟩ := exists_of_isKind hkind
  rw [Bool.not_eq_true', hasToken, Node.children] at hdeclare
  rw [isTypeOnlyStatement, hdeclare]
  rfl

theorem isTypeOnlyStatement_of_holds (hmodule : isTypeOnlyModule module.children)
    (h : Holds isOwnNamespace module inner) : isTypeOnlyStatement inner := by
  induction h with
  | member h => exact isTypeOnlyModule_iff_members.1 hmodule _ h
  | inside _ hown h ih =>
    rw [isTypeOnlyStatement_of_isOwnNamespace hown] at ih
    exact isTypeOnlyModule_iff_members.1 ih _ h

/-- It is enough to judge the statements that are no such namespaces themselves. -/
theorem isTypeOnlyModule_of_holds (module : Node) (h : ∀ inner, Holds isOwnNamespace module inner →
      isOwnNamespace inner = false → isTypeOnlyStatement inner) :
    isTypeOnlyModule module.children := by
  -- The members of a namespace are two levels below it, children of its body.
  suffices hall : ∀ node : Node, ∀ module ∈ node :: node.children,
      (∀ inner, Holds isOwnNamespace module inner → isOwnNamespace inner = false →
        isTypeOnlyStatement inner) → isTypeOnlyModule module.children from
    hall module module List.mem_cons_self h
  refine induct fun node ih => List.forall_mem_cons.2 ⟨fun h => ?_, fun child hchild =>
    ih child hchild child List.mem_cons_self⟩
  refine isTypeOnlyModule_iff_members.2 fun member hmember => ?_
  cases hown : isOwnNamespace member with
  | false => exact h member (.member hmember) hown
  | true =>
    obtain ⟨body, hbody, hmem, -⟩ := id hmember
    rw [isTypeOnlyStatement_of_isOwnNamespace hown]
    exact ih body (List.mem_of_find?_eq_some hbody) member (List.mem_cons_of_mem _ hmem)
      fun inner hinner => h inner (.of_member hmember hown hinner)

/-! ## What happens to namespaces -/

theorem isTypeOnlyModule_of_remove {s : Setting} {scope : Scope} (hown : isOwnNamespace statement)
    (h : (statementVerdict s scope statement).action = .remove .unit) :
    isTypeOnlyModule statement.children := by
  rw [← isTypeOnlyStatement_of_isOwnNamespace hown]
  cases hvalue : isTypeOnlyStatement statement with
  | true => rfl
  | false =>
    have hkind := (Bool.and_eq_true_iff.1 hown).1
    rw [statementVerdict_of_value hvalue, valueVerdict, beq_iff_eq.1 hkind] at h
    simp only [namespaceVerdict, isTypeOnlyModule_eq_false hkind hvalue] at h
    split at h
    · contradiction
    · split at h <;> cases h

/-- A statement of which nothing is there at run time goes, and so does one that the plan of a
function passes over though it is exported. A namespace is judged so if and only if it has no body
or all members of the body are, that is all statements in it and in the namespaces in it, where
those that are declared to be somewhere else count as a whole. So a namespace that goes, without
being declared to be somewhere else, has no statement in it that would stay on its own. -/
theorem statementVerdict_agrees (s : Setting) (scope : Scope) (statement : Node) :
    (isTypeOnlyStatement statement → statementVerdict s scope statement = ⟨.remove .unit, none⟩) ∧
    (∀ owner, scope.task = .functionBody owner → statement.hasToken .exportKeyword →
      exportOwner? scope statement = none → isTypeOnlyStatement statement) ∧
    (isTypeOnlyModule statement.children ↔
      ∀ member, HasMember statement member → isTypeOnlyStatement member) ∧
    (isTypeOnlyModule statement.children ↔ ∀ inner, Holds isOwnNamespace statement inner →
      isOwnNamespace inner = false → isTypeOnlyStatement inner) ∧
    (isOwnNamespace statement → (isTypeOnlyStatement statement ∨
        (statementVerdict s scope statement).action = .remove .unit) →
      ∀ inner, Holds isOwnNamespace statement inner → ∀ s' scope',
        statementVerdict s' scope' inner = ⟨.remove .unit, none⟩) := by
  have hgoes : ∀ (s : Setting) (scope : Scope) {statement : Node}, isTypeOnlyStatement statement →
      statementVerdict s scope statement = ⟨.remove .unit, none⟩ := fun s scope statement h => by
    rw [statementVerdict_eq, if_pos h]
  refine ⟨hgoes s scope, fun owner htask hexport hskip => ?_, isTypeOnlyModule_iff_members,
    ⟨fun h inner hinner _ => isTypeOnlyStatement_of_holds h hinner,
      isTypeOnlyModule_of_holds statement⟩, fun hown hgone inner hinner s' scope' => ?_⟩
  · simpa [exportOwner?, htask, hexport] using hskip
  · refine hgoes s' scope' (isTypeOnlyStatement_of_holds ?_ hinner)
    exact hgone.elim (isTypeOnlyStatement_of_isOwnNamespace hown ▸ ·)
      (isTypeOnlyModule_of_remove hown)

/-! ## Namespaces that are declared to be somewhere else -/

/-- A variable in a namespace that is declared to be somewhere else, in one that is not. -/
def declaredInside : String := "namespace N \x7b declare namespace M \x7b let x = 1 \x7d \x7d"

set_option synthInstance.maxSize 1000 in
/-- The outer namespace goes as a whole, and the variable goes with it that would stay on its
own. -/
theorem removes_declaredInside : ∃ tree outer statement,
    SyntaxTree.parseAs .standard "a.ts" declaredInside = .ok tree ∧ outer ∈ tree.root.children ∧
      isOwnNamespace outer ∧ Holds (isKind .moduleDeclaration) outer statement ∧
      ∀ s scope, (statementVerdict s scope outer).action = .remove .unit ∧
        (statementVerdict s scope statement).action.isKeep := by
  obtain ⟨tree, hparse, outer, houter, hown, htypes, body, hbody, nested, hnested, hkind, body',
    hbody', statement, hstatement, hvariable, hvalue⟩ : ∃ tree,
      SyntaxTree.parseAs .standard "a.ts" declaredInside = .ok tree ∧
      ∃ outer ∈ tree.root.children, isOwnNamespace outer ∧ isTypeOnlyStatement outer ∧
        ∃ body ∈ outer.child? .moduleBlock, ∃ nested ∈ body.children,
          nested.isKind .moduleDeclaration ∧ ∃ body' ∈ nested.child? .moduleBlock,
            ∃ statement ∈ body'.children, statement.isKind .variableStatement ∧
              isTypeOnlyStatement statement = false :=
    SyntaxTree.exists_checked (by decide +kernel)
  refine ⟨tree, outer, statement, hparse, houter, hown,
    .inside (.member ⟨body, hbody, hnested, token?_of_isKind hkind⟩) hkind
      ⟨body', hbody', hstatement, token?_of_isKind hvariable⟩,
    fun s scope => ⟨statementVerdict_of_isTypeOnly s scope htypes, ?_⟩⟩
  rw [statementVerdict_keeps s scope (.inr (.inr hvariable)) hvalue, keepStatement]
  repeat' split
  all_goals rfl

end Untype.Erasure
