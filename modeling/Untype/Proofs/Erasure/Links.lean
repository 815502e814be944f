-- Namespaces that become functions: each name that such a namespace exports
-- gets one link to the object of the namespace, and no other name does.
import Untype.Proofs.Erasure.Exports

namespace Untype

open Untype.Node

namespace Erasure

variable {s : Setting} {source owner : String} {node child statement new : Node}
  {children : List Node}
variable {siblings : List Node} {scope : Scope} {index : Nat} {action : Action} {kind : NodeKind}
  {span : Span} {task : Task} {declaration body : Node}

/-! ## Links -/

/-- What closes the function of a namespace and calls it: with the object of the namespace, or with
the property of the namespace `owner` that exports it. -/
def callText (owner : Option String) (name : String) : String :=
  ")(" ++ (match owner with
    | some owner =>
      name ++ " = " ++ owner ++ "." ++ name ++ " || (" ++ owner ++ "." ++ name ++ " = \x7b\x7d)"
    | none => name ++ " || (" ++ name ++ " = \x7b\x7d)") ++ ");"

/-- The namespace is a function that is called once, right behind its body. -/
inductive Called (source : String) (owner : Option String) (declaration new : Node) : Prop where
  | intro {name : String} {front : List Node} {body newBody : Node} {call : Inserted}
    (hname : namespaceName? source declaration.children = some name)
    (hbody : declaration.child? .moduleBlock = some body)
    (hchildren : new.children = front ++ [newBody, inserted call])
    (hface : newBody.face = body.face) (hcall : call.text = callText owner name)
    (honce : ∀ piece, inserted piece ∈ front → piece.text ≠ call.text) :
    Called source owner declaration new

/-- The constant is stored in the object `owner` as well, by one piece right in front of its
value. -/
inductive Stored (source owner : String) (declaration new : Node) : Prop where
  | intro {name : String} {position : Nat} {value newValue : Node} {link : Inserted}
    {front back : List Node} (hface : new.face = declaration.face)
    (hconstant : constantOf? source declaration.children = some (name, position))
    (hvalue : declaration.children[position]? = some value)
    (hchildren : new.children = front ++ inserted link :: newValue :: back)
    (hsame : newValue.face = value.face) (hlink : link.text = owner ++ "." ++ name ++ " =")
    (honce : ∀ part ∈ front ++ back, part.label ≠ .inserted) : Stored source owner declaration new

/-- All constants of the statement are stored in the object `owner` as well. -/
inductive AllStored (source owner : String) (statement new : Node) : Prop where
  | intro {list newList : Node} (hlist : statement.child? .variableDeclarationList = some list)
    (hmem : newList ∈ new.children) (hface : newList.face = list.face)
    (hstored : List.Forall₂ (Stored source owner)
      (list.children.filter (isKind .variableDeclaration))
      (newList.children.filter (isKind .variableDeclaration)))
    (honce : ∀ part ∈ new.children ++ newList.children, part.label ≠ .inserted) :
    AllStored source owner statement new

/-- No variable of the statement is stored anywhere else. -/
def NoneStored (new : Node) : Prop :=
  ∀ list ∈ new.children, list.isKind .variableDeclarationList →
    ∀ declaration ∈ list.children, declaration.isKind .variableDeclaration →
      ∀ part ∈ declaration.children, part.label ≠ .inserted

/-- What becomes of a statement in the body of the namespace `owner`, which is a function. What it
exports has one link for each name, and what it does not export has none. -/
inductive Linked (source owner : String) (statement : Node) : List Node → Prop where
  | token {new : Node} (htoken : statement.token?.isSome) (hface : new.face = statement.face) :
    Linked source owner statement [new]
  | types (htypes : isTypeOnlyStatement statement) : Linked source owner statement []
  | declaration {new : Node} {link : Inserted} {name : String}
    (hexport : statement.hasToken .exportKeyword)
    (hkind : statement.isKind .functionDeclaration ∨ statement.isKind .classDeclaration)
    (hface : new.face = statement.face) (hname : declaredName? source statement = some name)
    (hlink : link.text = owner ++ "." ++ name ++ " = " ++ name ++ ";") :
    Linked source owner statement [new, inserted link]
  | constants {new : Node} (hexport : statement.hasToken .exportKeyword)
    (hkind : statement.isKind .variableStatement) (hface : new.face = statement.face)
    (hstored : AllStored source owner statement new) : Linked source owner statement [new]
  | nested {new : Node} (hexport : statement.hasToken .exportKeyword)
    (hkind : statement.isKind .moduleDeclaration) (hface : new.face = statement.face)
    (hcalled : Called source (some owner) statement new) : Linked source owner statement [new]
  | hidden {new : Node} (hexport : statement.hasToken .exportKeyword = false)
    (hface : new.face = statement.face)
    (hstored : statement.isKind .variableStatement → NoneStored new)
    (hcalled : statement.isKind .moduleDeclaration → Called source none statement new) :
    Linked source owner statement [new]
  | enum {piece : Inserted} {enum baseIndent unit : String} {values : List (String × MemberValue)}
    (hexport : statement.hasToken .exportKeyword = false)
    (hkind : statement.isKind .enumDeclaration)
    (htext : piece.text = enumText enum false values baseIndent unit) :
    Linked source owner statement [inserted piece]
  | dropped (hexport : statement.hasToken .exportKeyword = false)
    (hkind : isImport statement ∨ statement.isKind .exportDeclaration ∨
      statement.isKind .exportAssignment) : Linked source owner statement []

/-! ## Namespaces that can be functions -/

theorem areLowerable_mem : ∀ {nodes : List Node},
    areLowerable source siblings nodes → ∀ child ∈ nodes,
      child.token?.isSome ∨ isLowerableMember source siblings child
  | [], _, child, hchild => by cases hchild
  | first :: rest, h, child, hchild => by
    rw [areLowerable, Bool.and_eq_true, Bool.or_eq_true] at h
    rcases List.mem_cons.1 hchild with rfl | hchild
    · exact h.1
    · exact areLowerable_mem h.2 child hchild

/-- The body of a namespace that can be a function, and what stands in it. -/
theorem exists_body : ∀ {children : List Node}, isLowerableModule source children →
    ∃ body, children.find? (isKind .moduleBlock) = some body ∧
      ∀ child ∈ body.children,
        child.token?.isSome ∨ isLowerableMember source body.children child
  | [], h => by cases h
  | first :: rest, h => by
    by_cases hblock : first.isKind .moduleBlock
    · obtain ⟨span, marks, statements, rfl⟩ := exists_of_isKind hblock
      exact ⟨_, List.find?_cons_of_pos hblock, areLowerable_mem h⟩
    · have hrest : isLowerableModule source rest := by
        rwa [isLowerableModule] at h
        rintro span marks statements rfl
        exact hblock rfl
      obtain ⟨body, hfind, hmembers⟩ := exists_body hrest
      exact ⟨body, by rw [List.find?_cons_of_neg hblock, hfind], hmembers⟩

/-! ## Statements in the body of a function -/

theorem statementVerdict_of_isTypeOnly (s : Setting) (scope : Scope)
    (h : isTypeOnlyStatement statement) :
    (statementVerdict s scope statement).action = .remove .unit := by
  rw [statementVerdict_eq, if_pos h]

theorem statementVerdict_keeps (s : Setting) (scope : Scope)
    (hkind : statement.isKind .functionDeclaration ∨ statement.isKind .classDeclaration ∨
      statement.isKind .variableStatement) (hvalue : isTypeOnlyStatement statement = false) :
    (statementVerdict s scope statement).action = keepStatement s scope statement := by
  rw [statementVerdict_of_value hvalue]
  rcases hkind with hkind | hkind | hkind <;> simp only [valueVerdict, beq_iff_eq.1 hkind]

theorem isTypeOnlyModule_eq_false (hkind : statement.isKind .moduleDeclaration)
    (hvalue : isTypeOnlyStatement statement = false) :
    isTypeOnlyModule statement.children = false := by
  obtain ⟨span, marks, children, rfl⟩ := exists_of_isKind hkind
  exact (Bool.or_eq_false_iff.1 hvalue).2

theorem statementVerdict_of_isLowerable (hallows : allowsLowering scope)
    (hkind : statement.isKind .moduleDeclaration)
    (hvalue : isTypeOnlyStatement statement = false)
    (hlowerable : isLowerable s.source scope.children statement) :
    (statementVerdict s scope statement).action =
      .keep (.function (lowering s.source (exportOwner? scope statement) statement)) [] [] := by
  simp [statementVerdict_of_value hvalue, valueVerdict, beq_iff_eq.1 hkind, namespaceVerdict,
    isTypeOnlyModule_eq_false hkind hvalue, hallows, hlowerable]

section Statements

variable {scope : Scope} (htask : scope.task = .functionBody owner)
  (hvalue : isTypeOnlyStatement statement = false)

include htask hvalue

theorem exportOwner?_eq : exportOwner? scope statement =
    if statement.hasToken .exportKeyword then some owner else none := by
  simp [exportOwner?, htask, hvalue]

theorem statementVerdict_namespace (hkind : statement.isKind .moduleDeclaration)
    (hlowerable : isLowerable s.source scope.children statement) :
    (statementVerdict s scope statement).action = .keep (.function (lowering s.source
      (if statement.hasToken .exportKeyword then some owner else none) statement)) [] [] := by
  rw [← exportOwner?_eq htask hvalue]
  exact statementVerdict_of_isLowerable (by simp [allowsLowering, htask]) hkind hvalue hlowerable

/-- What is exported and no namespace is assigned behind it, or stored with its values. -/
theorem statementVerdict_exported (hexport : statement.hasToken .exportKeyword)
    (hexportable : isExportable s.source statement) :
    (statement.isKind .functionDeclaration ∨ statement.isKind .classDeclaration) ∧
        (∃ name piece, declaredName? s.source statement = some name ∧
          piece.text = owner ++ "." ++ name ++ " = " ++ name ++ ";" ∧
          (statementVerdict s scope statement).action = .keep .assigned [] [piece]) ∨
      statement.isKind .variableStatement ∧ declaresConstants s.source statement ∧
        (statementVerdict s scope statement).action = .keep (.constants owner) [] [] := by
  have howner := exportOwner?_eq htask hvalue
  rw [if_pos hexport] at howner
  have hassigned : ∀ {kind : NodeKind}, statement.kind? = some kind →
      kind = .functionDeclaration ∨ kind = .classDeclaration →
      (declaredName? s.source statement).isSome → ∃ name piece,
        declaredName? s.source statement = some name ∧
        piece.text = owner ++ "." ++ name ++ " = " ++ name ++ ";" ∧
        keepStatement s scope statement = .keep .assigned [] [piece] := by
    intro kind hkind hcases hname
    obtain ⟨name, hname⟩ := Option.isSome_iff_exists.1 hname
    obtain ⟨piece, hpiece, htext⟩ : ∃ piece : Inserted, exportAssignment s owner statement =
        [piece] ∧ piece.text = owner ++ "." ++ name ++ " = " ++ name ++ ";" := by
      rw [exportAssignment, hname]
      exact ⟨_, rfl, rfl⟩
    refine ⟨name, piece, hname, htext, ?_⟩
    rcases hcases with rfl | rfl <;> simp only [keepStatement, howner, hkind, hpiece]
  unfold isExportable at hexportable
  split at hexportable
  · rename_i hkind
    have hfunction : statement.isKind .functionDeclaration := beq_iff_eq.2 hkind
    rw [statementVerdict_keeps s scope (.inl hfunction) hvalue]
    exact .inl ⟨.inl hfunction, hassigned hkind (.inl rfl) hexportable⟩
  · rename_i hkind
    have hclass : statement.isKind .classDeclaration := beq_iff_eq.2 hkind
    rw [statementVerdict_keeps s scope (.inr (.inl hclass)) hvalue]
    exact .inl ⟨.inr hclass, hassigned hkind (.inr rfl) hexportable⟩
  · rename_i hkind
    have hvariables : statement.isKind .variableStatement := beq_iff_eq.2 hkind
    rw [statementVerdict_keeps s scope (.inr (.inr hvariables)) hvalue]
    refine .inr ⟨hvariables, hexportable, ?_⟩
    simp only [keepStatement, howner, hkind]
  · cases hexportable

/-- What is not exported and no namespace stays without a piece, or gives way to the text of an
enum, or goes as an import or export of types. -/
theorem statementVerdict_hidden (hexport : statement.hasToken .exportKeyword = false)
    (hmodule : statement.isKind .moduleDeclaration = false) :
    (∃ task : Task, (statementVerdict s scope statement).action = .keep task [] [] ∧
        (statement.isKind .variableStatement → task = .none)) ∨
      (∃ piece : Inserted, (statementVerdict s scope statement).action = .replace piece ∧
        statement.isKind .enumDeclaration ∧ ∃ baseIndent unit,
          enumText? s.source statement baseIndent unit = some piece.text) ∨
      (∃ removal, (statementVerdict s scope statement).action = .remove removal) ∧
        (isImport statement ∨ statement.isKind .exportDeclaration ∨
          statement.isKind .exportAssignment) := by
  have howner := exportOwner?_eq htask hvalue
  rw [if_neg (by simp [hexport])] at howner
  rw [statementVerdict_of_value hvalue]
  unfold valueVerdict importAction exportAction enumVerdict
  dsimp only
  split
  case h_1 hkind =>
    rw [isKind, hkind] at hmodule
    cases hmodule
  case h_7 =>
    rw [keepStatement, howner]
    exact .inl ⟨.none, rfl, fun _ => rfl⟩
  all_goals
    rename_i hkind
    repeat' split
    all_goals first
      | exact .inl ⟨_, rfl, by simp [isKind, hkind]⟩
      | exact .inr (.inl ⟨_, rfl, beq_iff_eq.2 hkind, _, _, ‹_›⟩)
      | exact .inr (.inr ⟨⟨_, rfl⟩, by simp [isImport, isKind, hkind]⟩)

end Statements

/-! ## Constants -/

theorem ComesFrom.label_ne {acts : List Action} (h : ComesFrom s children acts index new)
    (hold : ∀ child ∈ children, child.label ≠ .inserted)
    (hpieces : ∀ action, acts[index]? = some action → action.pieces = []) :
    new.label ≠ .inserted := by
  obtain ⟨child, action, part, hchild, haction, hbecomes, hnew⟩ := h
  rcases hbecomes.cases_of_mem hnew with ⟨piece, hpiece, -⟩ | ⟨task, before, after, w, -, rfl⟩
  · rw [hpieces action haction] at hpiece
    cases hpiece
  · rw [(label_visit s task w child).1]
    exact hold child (List.mem_of_getElem? hchild)

/-- Nothing is put in beside the parts of a variable statement, but for links. -/
theorem pieces_of_variables
    (hkind : scope.kind = .variableStatement ∨ scope.kind = .variableDeclarationList ∨
      scope.kind = .variableDeclaration)
    (htask : scope.task = .none ∨ ∃ owner, scope.task = .constants owner)
    (hother : constantOwner? s scope index = none)
    (haction : (actionsOf s scope)[index]? = some action) : action.pieces = [] := by
  have hlist : (policy scope.kind).holdsList = false := by
    rcases hkind with hkind | hkind | hkind <;> rw [hkind] <;> rfl
  rw [actions_getElem?_of_not_holdsList hlist] at haction
  obtain ⟨child, -, rfl⟩ := Option.map_eq_some_iff.1 haction
  have hchild : (childVerdict s scope index child).action.pieces = [] := by
    rcases hkind with hkind | hkind | hkind <;> simp only [childVerdict, hkind, policy,
      NodeKind.isTypeNode]
    · rfl
    · rfl
    · split <;> rfl
  unfold verdict
  rw [hother]
  dsimp only
  iterate 4
    split
    · rfl
  split
  · rename_i hfunction
    rcases htask with htask | ⟨owner, htask⟩ <;> rw [htask] at hfunction <;> cases hfunction
  · rename_i hfields
    rcases htask with htask | ⟨owner, htask⟩ <;> rw [htask] at hfields <;> cases hfields
  · exact hchild

theorem visit_variables {marks : Marks}
    (hkind : kind = .variableStatement ∨ kind = .variableDeclarationList ∨
      kind = .variableDeclaration)
    (htask : task = .none ∨ ∃ owner, task = .constants owner)
    (hother : kind ≠ .variableDeclaration ∨ ∀ owner, task ≠ .constants owner)
    (hold : ∀ child ∈ children, child.label ≠ .inserted) (w : Walk) :
    ∀ part ∈ (visit s task w (branch kind span marks children)).node.children,
      part.label ≠ .inserted := by
  have hpolicy : policy kind ≠ .typeSyntax := by
    rcases hkind with rfl | rfl | rfl <;> decide
  obtain ⟨parts, hnodes, hparts⟩ := visit_partsOf hpolicy s task w span marks children
  rw [hnodes]
  intro part hpart
  obtain ⟨group, hgroup, hpart⟩ := List.mem_flatten.1 hpart
  obtain ⟨index, hindex⟩ := List.mem_iff_getElem?.1 hgroup
  exact (hparts.comesFrom hindex hpart).label_ne hold fun action =>
    pieces_of_variables hkind htask (constantOwner?_eq_none index hother)

/-- A constant is stored in front of its value. -/
theorem visit_stored {name : String} {position : Nat}
    (hkind : declaration.isKind .variableDeclaration)
    (hconstant : constantOf? s.source declaration.children = some (name, position))
    (hold : ∀ child ∈ declaration.children, child.label ≠ .inserted) (w : Walk) :
    Stored s.source owner declaration (visit s (.constants owner) w declaration).node := by
  have hface := face_visit s (.constants owner) w declaration
  obtain ⟨span, marks, children, rfl⟩ := exists_of_isKind hkind
  have hconstant : constantOf? s.source children = some (name, position) := hconstant
  have hposition : position < children.length := by
    simp only [constantOf?, Option.bind_eq_bind, Option.bind_eq_some_iff] at hconstant
    obtain ⟨name', -, sign, -, hsign⟩ := hconstant
    split at hsign
    · cases hsign
      assumption
    · cases hsign
  have hvalue := List.getElem?_eq_getElem hposition
  have hpolicy : policy .variableDeclaration ≠ .typeSyntax := by decide
  obtain ⟨parts, hnodes, hparts⟩ := visit_partsOf hpolicy s (.constants owner) w span marks children
  obtain ⟨piece, htext, haction⟩ : ∃ piece : Inserted, piece.text = owner ++ "." ++ name ++ " =" ∧
      (actionsOf s ⟨.variableDeclaration, span, .constants owner, children⟩)[position]? =
          some (.keep .none [piece] []) := by
    rw [actions_getElem?_of_not_holdsList rfl]
    simp only [hvalue, Option.map_some, verdict, constantOwner?, hconstant, beq_self_eq_true,
      if_true]
    exact ⟨_, rfl, rfl⟩
  obtain ⟨part, hpart, hbecomes⟩ := hparts.exists_part hvalue haction
  obtain ⟨front, back, hflatten, hfront, hback⟩ := hparts.around hpart
  -- Nothing is put in at any other place.
  have hother : ∀ {place : Nat} {part : Node}, place ≠ position → ComesFrom s children
      (actionsOf s ⟨.variableDeclaration, span, .constants owner, children⟩) place part →
      part.label ≠ .inserted := by
    intro place part hplace hcomes
    refine hcomes.label_ne hold fun action => pieces_of_variables (.inr (.inr rfl))
      (.inr ⟨_, rfl⟩) ?_
    simp [constantOwner?, hconstant, Ne.symm hplace]
  rw [hflatten] at hnodes
  cases hbecomes with
  | @kept _ w' _ _ links nothing hlinks hnothing =>
    cases hnothing
    obtain ⟨_, _, ⟨link, rfl, hlink⟩, hnil, rfl⟩ := List.forall₂_cons_left_iff.1 hlinks
    cases hnil
    refine .intro hface hconstant hvalue (hnodes.trans (List.append_assoc _ _ _))
      (face_visit s .none w' children[position]) (hlink.trans htext) fun part hpart => ?_
    rcases List.mem_append.1 hpart with hpart | hpart
    · obtain ⟨place, hplace, hcomes⟩ := hfront part hpart
      exact hother (Nat.ne_of_lt hplace) hcomes
    · obtain ⟨place, hplace, hcomes⟩ := hback part hpart
      exact hother (Nat.ne_of_gt hplace) hcomes

/-- The parts of a variable statement are kept with the task that they have for each other. -/
theorem action_of_variables (hkind : kind = .variableStatement ∨ kind = .variableDeclarationList)
    (htask : task = .none ∨ ∃ owner, task = .constants owner)
    (hpart : child.isKind .variableDeclarationList ∨ child.isKind .variableDeclaration)
    (hchild : children[index]? = some child) :
    (actionsOf s ⟨kind, span, task, children⟩)[index]? =
      some (.keep task [] []) := by
  have hplain : child.token? = none ∧ child.isTypePart = false := by
    rcases hpart with hpart | hpart
    all_goals
      obtain ⟨span, marks, nodes, rfl⟩ := exists_of_isKind hpart
      exact ⟨rfl, rfl⟩
  have hcommon : task.isCommon := by rcases htask with rfl | ⟨owner, rfl⟩ <;> rfl
  have hother : kind ≠ .variableDeclaration := by rcases hkind with rfl | rfl <;> decide
  have hlist : (policy kind).holdsList = false := by rcases hkind with rfl | rfl <;> rfl
  rw [actions_getElem?_of_not_holdsList hlist, hchild, Option.map_some,
    verdict_of_isCommon hother hcommon (by simp [isToken, hplain.1]) hplain.2]
  rcases hkind with rfl | rfl <;> rcases htask with rfl | ⟨owner, rfl⟩ <;>
    rcases hpart with hpart | hpart <;>
    simp [childVerdict, policy, NodeKind.isTypeNode, childTask, hpart]

/-- Where each node of a kind becomes one of this kind, and nothing else does, those are left in
order. -/
theorem forall₂_filter {good : Node → Node → Prop} {p : Node → Bool} {parts : List (List Node)}
    (h : List.Forall₂ (fun child part => if p child then ∃ new, part = [new] ∧ p new ∧
      good child new else ∀ new ∈ part, p new = false) children parts) :
    List.Forall₂ good (children.filter p) (parts.flatten.filter p) := by
  induction h with
  | nil => exact .nil
  | @cons child part children parts hpart _ ih =>
    rw [List.flatten_cons, List.filter_append]
    split at hpart
    · rename_i hchild
      obtain ⟨new, rfl, hnew, hgood⟩ := hpart
      rw [List.filter_cons_of_pos hchild, List.filter_cons_of_pos hnew]
      exact .cons hgood ih
    · rename_i hchild
      have hnone : part.filter p = [] :=
        List.filter_eq_nil_iff.2 fun new hnew => by simp [hpart new hnew]
      rw [List.filter_cons_of_neg hchild, hnone]
      exact ih

/-- The constants of an exported statement are stored. -/
theorem visit_allStored (hkind : statement.isKind .variableStatement)
    (hconstants : declaresConstants s.source statement)
    (hold : ∀ part ∈ statement.descendants, part.label ≠ .inserted) (w : Walk) :
    AllStored s.source owner statement (visit s (.constants owner) w statement).node := by
  have hchildren : ∀ {parent : Node}, parent ∈ statement.descendants →
      ∀ child ∈ parent.children, child.label ≠ .inserted := fun hparent child hchild =>
    hold child (mem_descendants_of_mem_children hchild hparent)
  simp only [declaresConstants, Option.any_eq_true, Bool.and_eq_true,
    List.all_eq_true] at hconstants
  obtain ⟨list, hlist, -, hall⟩ := hconstants
  have hlistKind : list.isKind .variableDeclarationList := List.find?_some hlist
  have hlistMem := List.mem_of_find?_eq_some hlist
  have hlistBelow := child_mem_descendants hlistMem
  obtain ⟨span, marks, nodes, rfl⟩ := exists_of_isKind hkind
  obtain ⟨index, hindex⟩ := List.mem_iff_getElem?.1 hlistMem
  have hmeets : Meets s (.constants owner) (branch .variableStatement span marks nodes) list
      (.keep (.constants owner) [] []) :=
    ⟨_, _, _, _, index, rfl, by decide, hindex,
      action_of_variables (.inl rfl) (.inr ⟨_, rfl⟩) (.inl hlistKind) hindex⟩
  obtain ⟨part, hbecomes, hsubset⟩ := hmeets.exists_part w
  obtain ⟨w', rfl⟩ := hbecomes.of_stay
  refine .intro hlist (hsubset (List.mem_singleton_self _)) (face_visit s _ w' list) ?_
    fun part hpart => ?_
  · obtain ⟨span', marks', declarations, rfl⟩ := exists_of_isKind hlistKind
    have hpolicy : policy .variableDeclarationList ≠ .typeSyntax := by decide
    obtain ⟨parts, hnodes, hparts⟩ :=
      visit_partsOf hpolicy s (.constants owner) w' span' marks' declarations
    rw [hnodes]
    refine forall₂_filter (hparts.forall₂ fun index child action part hchild haction hbecomes => ?_)
    have hmem := List.mem_of_getElem? hchild
    split
    · rename_i hdeclaration
      rw [action_of_variables (.inr rfl) (.inr ⟨_, rfl⟩) (.inr hdeclaration) hchild] at haction
      cases haction
      obtain ⟨w'', rfl⟩ := hbecomes.of_stay
      have hconstant : (constantOf? s.source child.children).isSome := by
        simpa [hdeclaration] using hall child hmem
      obtain ⟨⟨name, position⟩, hconstant⟩ := Option.isSome_iff_exists.1 hconstant
      exact ⟨_, rfl, by rw [isKind_visit, hdeclaration], visit_stored hdeclaration hconstant
        (hchildren (descendants_subset hlistBelow (child_mem_descendants hmem))) w''⟩
    · rename_i hdeclaration
      intro new hnew
      rcases hbecomes.label_eq hnew with hlabel | hlabel
      · cases new with
        | branch kind span marks children => cases hlabel
        | _ => rfl
      · rw [isKind, kind?_of_label_eq hlabel]
        exact Bool.eq_false_iff.2 hdeclaration
  · rcases List.mem_append.1 hpart with hpart | hpart
    · exact visit_variables (.inl rfl) (.inr ⟨_, rfl⟩) (.inl (by decide))
        (hchildren (mem_descendants_self _)) w part hpart
    · obtain ⟨span', marks', declarations, rfl⟩ := exists_of_isKind hlistKind
      exact visit_variables (.inr (.inl rfl)) (.inr ⟨_, rfl⟩) (.inl (by decide))
        (hchildren hlistBelow) w' part hpart

theorem Meets.task_of_variables {before after : List Inserted}
    (hkind : node.isKind .variableStatement ∨ node.isKind .variableDeclarationList)
    (hpart : child.isKind .variableDeclarationList ∨ child.isKind .variableDeclaration)
    (h : Meets s .none node child (.keep task before after)) : task = .none := by
  obtain ⟨kind, span, marks, children, index, rfl, -, hchild, haction⟩ := h
  have hkind : kind = .variableStatement ∨ kind = .variableDeclarationList := by
    simpa [isKind, kind?] using hkind
  rw [action_of_variables hkind (.inl rfl) hpart hchild] at haction
  cases haction
  rfl

/-- Variables that are not exported are stored nowhere else. -/
theorem visit_noneStored (hkind : statement.isKind .variableStatement)
    (hold : ∀ part ∈ statement.descendants, part.label ≠ .inserted) (w : Walk) :
    NoneStored (visit s .none w statement).node := by
  -- A part of this kind among the new ones is what becomes of an old one, kept without a task.
  have hstep : ∀ {parent new : Node} {w : Walk}, parent ∈ statement.descendants →
      (parent.isKind .variableStatement ∨ parent.isKind .variableDeclarationList) →
      new ∈ (visit s .none w parent).node.children →
      (new.isKind .variableDeclarationList ∨ new.isKind .variableDeclaration) →
      ∃ old w', old ∈ statement.descendants ∧ new = (visit s .none w' old).node := by
    intro parent new w hparent hparentKind hnew hnewKind
    obtain ⟨kind, span, marks, nodes, rfl, hpolicy⟩ : ∃ kind span marks nodes,
        parent = branch kind span marks nodes ∧ policy kind ≠ .typeSyntax := by
      rcases hparentKind with hparentKind | hparentKind
      all_goals
        obtain ⟨span, marks, nodes, rfl⟩ := exists_of_isKind hparentKind
        exact ⟨_, span, marks, nodes, rfl, by decide⟩
    rcases exists_hands hpolicy hnew with hlabel | ⟨task, w', old, hmem, hhands, rfl⟩
    · cases new with
      | branch kind span marks children => cases hlabel
      | _ => simp [isKind, kind?] at hnewKind
    · rw [isKind_visit, isKind_visit] at hnewKind
      obtain ⟨before, after, hmeets⟩ := hhands.meets
      obtain rfl := hmeets.task_of_variables hparentKind hnewKind
      exact ⟨old, w', descendants_subset hparent (child_mem_descendants hmem), rfl⟩
  intro list hlist hlistKind declaration hdeclaration hdeclarationKind
  obtain ⟨oldList, w', holdList, rfl⟩ := hstep (mem_descendants_self statement) (.inl hkind) hlist
    (.inl hlistKind)
  rw [isKind_visit] at hlistKind
  obtain ⟨old, w'', holdMem, rfl⟩ :=
    hstep holdList (.inr hlistKind) hdeclaration (.inr hdeclarationKind)
  rw [isKind_visit] at hdeclarationKind
  obtain ⟨span, marks, nodes, rfl⟩ := exists_of_isKind hdeclarationKind
  exact visit_variables (.inr (.inr rfl)) (.inl rfl) (.inr (by simp))
    (fun child hchild => hold child (mem_descendants_of_mem_children hchild holdMem)) w''

/-! ## Functions -/

/-- What is put in beside the head of a namespace. -/
theorem pieces_of_head {lowering : Lowering} {piece : Inserted}
    (hchild : children[index]? = some child) (hhead : child.isKind .moduleBlock = false)
    (haction : (actionsOf s ⟨.moduleDeclaration, span, .function lowering, children⟩)[index]? =
      some action)
    (hpiece : piece ∈ action.pieces) : piece.text.toList.head? ≠ some ')' := by
  rw [actions_getElem?_of_not_holdsList rfl, hchild, Option.map_some] at haction
  obtain rfl := Option.some.inj haction
  unfold verdict at hpiece
  rw [constantOwner?_eq_none index (.inl (by simp))] at hpiece
  dsimp only at hpiece
  iterate 4
    split at hpiece
    · cases hpiece
  unfold functionAction replaceToken at hpiece
  split at hpiece
  iterate 3
    obtain rfl := List.mem_singleton.1 hpiece
    simp
  · rename_i hlabel
    cases child with
    | branch kind span marks nodes =>
      cases hlabel
      cases hhead
    | _ => cases hlabel
  · cases hpiece

theorem head?_callText (owner : Option String) (name : String) :
    (callText owner name).toList.head? = some ')' := by
  simp [callText]

theorem verdict_of_function {lowering : Lowering}
    (hexport : (child.isToken .exportKeyword && lowering.nested) = false)
    (hpart : child.isTypePart = false) :
    verdict s ⟨.moduleDeclaration, span, .function lowering, children⟩ index child =
      ⟨functionAction s.source lowering child, none⟩ := by
  refine verdict_by_task (motive := (· = ⟨functionAction s.source lowering child, none⟩))
    (constantOwner?_eq_none index (.inl (by simp))) hexport hpart ?_ ?_ ?_
  · rintro _ ⟨rfl⟩
    rfl
  · rintro plan ⟨⟩
  · rintro ⟨⟩

theorem action_of_body (s : Setting) (span : Span) {lowering : Lowering}
    (hchild : children[index]? = some child) (hkind : child.isKind .moduleBlock) :
    ∃ piece : Inserted, piece.text = ")(" ++ lowering.argument ++ ");" ∧
      (actionsOf s ⟨.moduleDeclaration, span, .function lowering, children⟩)[index]? =
          some (.keep (.functionBody lowering.name) [] [piece]) := by
  obtain ⟨span', marks, statements, rfl⟩ := exists_of_isKind hkind
  rw [actions_getElem?_of_not_holdsList rfl, hchild, Option.map_some, verdict_of_function rfl rfl]
  exact ⟨_, rfl, rfl⟩

/-- A namespace that can be a function is one that is called. -/
theorem visit_called {text : String} (hregular : node.Regular text)
    (hkind : node.isKind .moduleDeclaration)
    (hlowerable : isLowerable s.source siblings node)
    (hold : ∀ child ∈ node.children, child.label ≠ .inserted) (owner : Option String) (w : Walk) :
    Called s.source owner node
      (visit s (.function (lowering s.source owner node)) w node).node := by
  obtain ⟨span, marks, children, rfl⟩ := exists_of_isKind hkind
  obtain ⟨hvariable, hmodule⟩ := Bool.and_eq_true_iff.1 hlowerable
  obtain ⟨name, hname, -⟩ := (Option.any_eq_true _ _).1 hvariable
  obtain ⟨body, hbody, -⟩ := exists_body hmodule
  have hshape := hregular.branch.1 (by decide)
  obtain ⟨front, last, hchildren, hlast, hfront⟩ :=
    hshape.2 (List.any_eq_true.2 ⟨body, List.mem_of_find?_eq_some hbody, List.find?_some hbody⟩)
  obtain rfl : children = front ++ [last] := hchildren
  have hfound : (front ++ [last]).find? (isKind .moduleBlock) = some last := by
    rw [List.find?_append, List.find?_eq_none.2 fun part hpart => by simp [hfront part hpart]]
    simp [hlast]
  have hindex : (front ++ [last])[front.length]? = some last := by simp
  have hpolicy : policy .moduleDeclaration ≠ .typeSyntax := by decide
  obtain ⟨parts, hnodes, hparts⟩ := visit_partsOf hpolicy s
    (.function (lowering s.source owner (branch .moduleDeclaration span marks (front ++ [last])))) w
    span marks (front ++ [last])
  obtain ⟨piece, htext, haction⟩ := action_of_body s span hindex hlast
  obtain ⟨part, hpart, hbecomes⟩ := hparts.exists_part hindex haction
  obtain ⟨before, behind, hflatten, hbefore, hbehind⟩ := hparts.around hpart
  have hnone : behind = [] := by
    refine List.eq_nil_iff_forall_not_mem.2 fun new hnew => ?_
    obtain ⟨place, hplace, child, action, group, hchild, -⟩ := hbehind new hnew
    have hlt := (List.getElem?_eq_some_iff.1 hchild).1
    rw [List.length_append, List.length_singleton] at hlt
    omega
  subst hnone
  have hcall : piece.text = callText owner name := by
    rw [htext]
    cases owner <;> simp [lowering, callText, hname]
  rw [hflatten, List.append_nil] at hnodes
  cases hbecomes with
  | @kept _ w' _ _ links calls hlinks hcalls =>
    cases hlinks
    obtain ⟨_, _, ⟨call, rfl, hsame⟩, hnil, rfl⟩ := List.forall₂_cons_left_iff.1 hcalls
    cases hnil
    refine .intro hname hfound hnodes (face_visit s _ w' last) (hsame.trans hcall)
      fun link hlink heq => ?_
    obtain ⟨place, hplace, child, action, group, hchild, haction, hbecomes, hnew⟩ := hbefore _ hlink
    have hmem : child ∈ front := by
      rw [List.getElem?_append_left hplace] at hchild
      exact List.mem_of_getElem? hchild
    rcases hbecomes.cases_of_mem hnew with ⟨piece', hpiece, ⟨link', hlink', hsame'⟩⟩ |
      ⟨task, _, _, w', -, hvisit⟩
    · cases hlink'
      refine pieces_of_head hchild (hfront child hmem) haction hpiece ?_
      rw [← hsame', heq, hsame, hcall, head?_callText]
    · refine hold child (List.mem_append_left _ hmem) ?_
      rw [← (label_visit s task w' child).1, ← hvisit]
      rfl

/-! ## The word `export` -/

theorem kind_of_isStatement (h : statement.isStatement)
    (hvalue : isTypeOnlyStatement statement = false) (hkind : statement.kind? = some kind) :
    policy kind ≠ .typeSyntax ∧ kind ≠ .variableDeclaration := by
  cases statement with
  | branch kind span marks children =>
    obtain rfl := Option.some.inj hkind
    have hstatement : kind.isStatement := (Bool.and_eq_true_iff.1 h).1
    cases kind <;> first | decide | cases hvalue | cases hstatement
  | _ => cases hkind

/-- A token among the parts of a visited node was kept. -/
theorem exists_meets_of_hasToken {kind : TokenKind} {w : Walk}
    (hpolicy : ∀ kind, node.kind? = some kind → policy kind ≠ .typeSyntax)
    (h : (visit s task w node).node.hasToken kind) : ∃ token ∈ node.children,
      token.isToken kind ∧ ∃ task' before after, Meets s task node token
        (.keep task' before after) := by
  obtain ⟨new, hnew, htoken⟩ := List.any_eq_true.1 h
  have hlabel := (label_visit s task w node).1
  cases node with
  | branch kind' span marks nodes =>
    rcases exists_hands (hpolicy kind' rfl) hnew with hinserted |
      ⟨task', w', token, hmem, hhands, rfl⟩
    · cases new with
      | inserted piece => cases htoken
      | _ => cases hinserted
    · rw [isToken_of_label_eq (label_visit s task' w' token).1] at htoken
      exact ⟨token, hmem, htoken, task', hhands.meets⟩
  | _ =>
    cases hvisit : (visit s task w _).node with
    | branch kind' span marks nodes =>
      rw [hvisit] at hlabel
      cases hlabel
    | _ =>
      rw [hvisit] at hnew
      cases hnew

/-- The word `export` goes where the task says so, and none comes. -/
theorem not_exported_visit
    (hkind : ∀ kind, node.kind? = some kind → policy kind ≠ .typeSyntax ∧
      kind ≠ .variableDeclaration)
    (h : task.dropsExport ∨ node.hasToken .exportKeyword = false) (w : Walk) :
    (visit s task w node).node.hasToken .exportKeyword = false := by
  refine Bool.eq_false_iff.2 fun hexport => ?_
  obtain ⟨token, hmem, htoken, task', before, after, hmeets⟩ := exists_meets_of_hasToken
    (fun kind h => (hkind kind h).1) hexport
  have hnone := List.any_eq_true.2 ⟨token, hmem, htoken⟩
  rcases h with hdrops | h
  · obtain ⟨kind, span, marks, nodes, index, rfl, haction | ⟨-, haction⟩⟩ := hmeets.verdict
    · unfold verdict at haction
      rw [constantOwner?_eq_none index (.inl (hkind kind rfl).2)] at haction
      simp [htoken, hdrops] at haction
    · cases haction
  · rw [hasToken, hnone] at h
    cases h

/-! ## The body of a function -/

/-- In the body of a function the rule for statements says it all. -/
theorem action_of_statement (hchild : children[index]? = some statement)
    (hpart : statement.isTypePart = false)
    (haction : (actionsOf s ⟨.moduleBlock, span, .functionBody owner, children⟩)[index]? =
      some action) :
    action = if statement.token?.isSome then .keep .none [] []
      else (statementVerdict s
        ⟨.moduleBlock, span, .functionBody owner, children⟩ statement).action := by
  rw [actions_getElem?_of_not_holdsList rfl, hchild, Option.map_some] at haction
  obtain rfl := Option.some.inj haction
  have hverdict : verdict s ⟨.moduleBlock, span, .functionBody owner, children⟩ index statement =
      childVerdict s ⟨.moduleBlock, span, .functionBody owner, children⟩ index statement := by
    refine verdict_by_task (motive := (· = childVerdict s
      ⟨.moduleBlock, span, .functionBody owner, children⟩ index statement))
      (constantOwner?_eq_none index (.inl (by simp))) (by simp [Task.dropsExport]) hpart ?_ ?_ ?_
    · rintro lowering ⟨⟩
    · rintro plan ⟨⟩
    · exact fun _ => rfl
  rw [hverdict]
  simp only [childVerdict, policy, childTask]
  split <;> rfl

/-- A statement in the body of a namespace that can be a function. -/
structure IsMember (source : String) (siblings : List Node) (statement : Node) : Prop where
  regular : statement.Regular source
  old : ∀ part ∈ statement.descendants, part.label ≠ .inserted
  isStatement : statement.isStatement
  not_export : statement.isToken .exportKeyword = false
  lowerable : statement.token?.isSome ∨ isLowerableMember source siblings statement

theorem IsMember.children_old (h : IsMember source siblings statement) :
    ∀ child ∈ statement.children, child.label ≠ .inserted := fun child hchild =>
  h.old child (child_mem_descendants hchild)

/-- What is exported in the body of a function is a function, a class, constants or a namespace. -/
theorem IsMember.cases (hmember : IsMember source siblings statement)
    (hvalue : isTypeOnlyStatement statement = false) (htoken : statement.token? = none) :
    statement.isKind .moduleDeclaration ∧ isLowerable source siblings statement ∨
      statement.isKind .moduleDeclaration = false ∧
        (statement.hasToken .exportKeyword → isExportable source statement) := by
  cases statement with
  | leaf token => cases htoken
  | inserted piece => exact .inr ⟨rfl, fun hexport => by cases hexport⟩
  | branch kind span marks children =>
    have h := hmember.lowerable.resolve_left nofun
    rw [isLowerableMember, hvalue, Bool.false_or] at h
    split at h
    · rename_i hkind
      exact .inl ⟨by simpa [isKind, kind?] using hkind, h⟩
    · rename_i hkind
      refine .inr ⟨by simpa [isKind, kind?] using hkind, fun hexport => ?_⟩
      rw [Bool.or_eq_true, Bool.not_eq_true'] at h
      exact h.resolve_left fun hnone => by
        rw [hasToken, Node.children, hnone] at hexport
        cases hexport

section Members

variable {scope : Scope} {part : List Node} (hmember : IsMember s.source scope.children statement)
  (htask : scope.task = .functionBody owner) (hvalue : isTypeOnlyStatement statement = false)

include hmember htask hvalue

theorem linked_exported (htoken : statement.token? = none)
    (hexport : statement.hasToken .exportKeyword)
    (h : Becomes s statement (statementVerdict s scope statement).action part) :
    Linked s.source owner statement part := by
  rcases hmember.cases hvalue htoken with ⟨hkind, hlowerable⟩ | ⟨-, hexportable⟩
  · rw [statementVerdict_namespace htask hvalue hkind hlowerable, if_pos hexport] at h
    obtain ⟨w, rfl⟩ := h.of_stay
    refine .nested hexport hkind (face_visit s _ w statement) ?_
    exact visit_called hmember.regular hkind hlowerable hmember.children_old (some owner) w
  rcases statementVerdict_exported htask hvalue hexport (hexportable hexport) with
    ⟨hkind, name, piece, hname, htext, haction⟩ | ⟨hkind, hconstants, haction⟩
  · rw [haction] at h
    cases h with
    | @kept _ w _ _ nothing links hnothing hlinks =>
      cases hnothing
      obtain ⟨_, _, ⟨link, rfl, hlink⟩, hnil, rfl⟩ := List.forall₂_cons_left_iff.1 hlinks
      cases hnil
      exact .declaration hexport hkind (face_visit s _ w statement) hname (hlink.trans htext)
  · rw [haction] at h
    obtain ⟨w, rfl⟩ := h.of_stay
    exact .constants hexport hkind (face_visit s _ w statement)
      (visit_allStored hkind hconstants hmember.old w)

theorem linked_hidden (htoken : statement.token? = none)
    (hexport : statement.hasToken .exportKeyword = false)
    (h : Becomes s statement (statementVerdict s scope statement).action part) :
    Linked s.source owner statement part := by
  rcases hmember.cases hvalue htoken with ⟨hkind, hlowerable⟩ | ⟨hkind, -⟩
  · rw [statementVerdict_namespace htask hvalue hkind hlowerable, if_neg (by simp [hexport])] at h
    obtain ⟨w, rfl⟩ := h.of_stay
    refine .hidden hexport (face_visit s _ w statement) (fun hvariables => ?_) fun _ => ?_
    · rw [isKind, beq_iff_eq.1 hkind] at hvariables
      cases hvariables
    · exact visit_called hmember.regular hkind hlowerable hmember.children_old none w
  rcases statementVerdict_hidden htask hvalue hexport hkind with
    ⟨task, haction, htask⟩ | ⟨piece, haction, henum, indent, unit, htext⟩ |
    ⟨⟨removal, haction⟩, hdropped⟩
  · rw [haction] at h
    obtain ⟨w, rfl⟩ := h.of_stay
    refine .hidden hexport (face_visit s _ w statement) (fun hvariables => ?_) fun hmodule => ?_
    · rw [htask hvariables]
      exact visit_noneStored hvariables hmember.old w
    · rw [hkind] at hmodule
      cases hmodule
  · rw [haction] at h
    cases h with
    | replaced hpiece =>
      obtain ⟨left, rfl, hsame⟩ := hpiece
      obtain ⟨enum, values, -, htext⟩ := enumText?_eq_some htext
      rw [hexport] at htext
      exact .enum hexport henum (hsame.trans htext)
  · rw [haction] at h
    cases h
    exact .dropped hexport hdropped

/-- What is exported is kept only without the word `export`. -/
theorem dropsExport_of_keep {before after : List Inserted} (htoken : statement.token? = none)
    (hexport : statement.hasToken .exportKeyword)
    (h : (statementVerdict s scope statement).action = .keep task before after) :
    task.dropsExport := by
  rcases hmember.cases hvalue htoken with ⟨hkind, hlowerable⟩ | ⟨-, hexportable⟩
  · rw [statementVerdict_namespace htask hvalue hkind hlowerable, if_pos hexport] at h
    cases h
    rfl
  rcases statementVerdict_exported htask hvalue hexport (hexportable hexport) with
    ⟨-, name, piece, -, -, haction⟩ | ⟨-, -, haction⟩
  all_goals
    rw [haction] at h
    cases h
    rfl

end Members

section Bodies

variable {span : Span} {index : Nat} {action : Action} {part : List Node}
  (hmember : IsMember s.source children statement) (hchild : children[index]? = some statement)
  (haction : (actions ⟨.moduleBlock, span, .functionBody owner, children⟩ (verdicts s
    ⟨.moduleBlock, span, .functionBody owner, children⟩))[index]? = some action)
  (h : Becomes s statement action part)

include hmember hchild haction h

/-- What becomes of a statement in the body of a function has a link for each name it exports. -/
theorem Becomes.linked : Linked s.source owner statement part := by
  obtain rfl := action_of_statement hchild (plain_of_isStatement hmember.isStatement).2 haction
  by_cases htoken : statement.token?.isSome
  · rw [if_pos htoken] at h
    obtain ⟨w, rfl⟩ := h.of_stay
    exact .token htoken (face_visit s .none w statement)
  rw [if_neg htoken] at h
  have htoken := Option.not_isSome_iff_eq_none.1 htoken
  cases hvalue : isTypeOnlyStatement statement with
  | true =>
    rw [statementVerdict_of_isTypeOnly s _ hvalue] at h
    cases h
    exact .types hvalue
  | false =>
    cases hexport : statement.hasToken .exportKeyword with
    | true => exact linked_exported hmember rfl hvalue htoken hexport h
    | false => exact linked_hidden hmember rfl hvalue htoken hexport h

/-- What becomes of a statement in the body of a function has no word `export`. -/
theorem Becomes.not_exported (hnew : new ∈ part) :
    new.isToken .exportKeyword = false ∧ new.hasToken .exportKeyword = false := by
  obtain rfl := action_of_statement hchild (plain_of_isStatement hmember.isStatement).2 haction
  rcases h.cases_of_mem hnew with ⟨piece, -, ⟨left, rfl, -⟩⟩ |
    ⟨task, before, after, w, haction, rfl⟩
  · exact ⟨rfl, rfl⟩
  have hword : statement.isToken .exportKeyword = false := hmember.not_export
  refine ⟨by rw [isToken_of_label_eq (label_visit s task w statement).1, hword], ?_⟩
  have hgone : isTypeOnlyStatement statement = false ∧
      (task.dropsExport ∨ statement.hasToken .exportKeyword = false) := by
    by_cases htoken : statement.token?.isSome
    · cases statement with
      | leaf token => exact ⟨rfl, .inr rfl⟩
      | _ => cases htoken
    rw [if_neg htoken] at haction
    have htoken := Option.not_isSome_iff_eq_none.1 htoken
    cases hvalue : isTypeOnlyStatement statement with
    | true =>
      rw [statementVerdict_of_isTypeOnly s _ hvalue] at haction
      cases haction
    | false =>
      refine ⟨rfl, ?_⟩
      cases hexport : statement.hasToken .exportKeyword with
      | true => exact .inl (dropsExport_of_keep hmember rfl hvalue htoken hexport haction)
      | false => exact .inr rfl
  exact not_exported_visit (fun _ => kind_of_isStatement hmember.isStatement hgone.1) hgone.2 w

end Bodies

/-- The statements of a namespace that can be a function. -/
theorem isMember_of_isLowerable (hregular : declaration.Regular source)
    (hold : ∀ part ∈ declaration.descendants, part.label ≠ .inserted)
    (hlowerable : isLowerable source siblings declaration)
    (hbody : declaration.child? .moduleBlock = some body) (hmem : statement ∈ body.children) :
    IsMember source body.children statement := by
  obtain ⟨body', hbody', hmembers⟩ := exists_body (Bool.and_eq_true_iff.1 hlowerable).2
  obtain rfl : body' = body := Option.some.inj (hbody'.symm.trans hbody)
  have hkind : body'.isKind .moduleBlock := List.find?_some hbody
  have hbelow := child_mem_descendants (List.mem_of_find?_eq_some hbody)
  have hstatement := mem_descendants_of_mem_children hmem hbelow
  have hshape := hregular.of_mem hbelow
  obtain ⟨span, marks, statements, rfl⟩ := exists_of_isKind hkind
  obtain ⟨-, -, hstatements⟩ := hshape.branch.1 (by decide)
  exact {
    regular := hregular.of_mem hstatement
    old := fun part hpart => hold part (descendants_subset hstatement hpart)
    isStatement := (hstatements statement hmem).1
    not_export := (hstatements statement hmem).2
    lowerable := hmembers statement hmem }

theorem meets_body {lowering : Lowering} (hkind : declaration.isKind .moduleDeclaration)
    (hbody : declaration.child? .moduleBlock = some body) :
    ∃ piece, Meets s (.function lowering) declaration body
      (.keep (.functionBody lowering.name) [] [piece]) := by
  obtain ⟨span, marks, nodes, rfl⟩ := exists_of_isKind hkind
  obtain ⟨index, hindex⟩ := List.mem_iff_getElem?.1 (List.mem_of_find?_eq_some hbody)
  obtain ⟨piece, -, haction⟩ := action_of_body s span hindex (List.find?_some hbody)
  exact ⟨piece, _, _, _, _, index, rfl, by decide, hindex, haction⟩

section Body

variable {body : Node} (hkind : body.isKind .moduleBlock)
  (hmembers : ∀ statement ∈ body.children, IsMember s.source body.children statement)

include hkind hmembers

/-- A visit of the body of a function links what is exported, and drops the word `export`. -/
theorem visit_body (owner : String) (w : Walk) :
    ∃ parts, (visit s (.functionBody owner) w body).node.children = parts.flatten ∧
      List.Forall₂ (Linked s.source owner) body.children parts ∧
      ∀ part ∈ (visit s (.functionBody owner) w body).node.children,
        part.isToken .exportKeyword = false ∧ part.hasToken .exportKeyword = false := by
  obtain ⟨span, marks, statements, rfl⟩ := exists_of_isKind hkind
  have hpolicy : policy .moduleBlock ≠ .typeSyntax := by decide
  obtain ⟨parts, hnodes, hparts⟩ :=
    visit_partsOf hpolicy s (.functionBody owner) w span marks statements
  refine ⟨parts, hnodes, hparts.forall₂ fun index statement action part hchild haction hbecomes =>
    hbecomes.linked (hmembers statement (List.mem_of_getElem? hchild)) hchild haction, ?_⟩
  rw [hnodes]
  intro new hnew
  obtain ⟨part, hpart, hnew⟩ := List.mem_flatten.1 hnew
  obtain ⟨index, hindex⟩ := List.mem_iff_getElem?.1 hpart
  obtain ⟨statement, action, hchild, haction, hbecomes⟩ := hparts.exists_child hindex
  exact hbecomes.not_exported (hmembers statement (List.mem_of_getElem? hchild)) hchild haction hnew

/-- A namespace in the body of a function becomes a function too, if anything of it is there at run
time. -/
theorem exists_meets_nested {nested : Node} (hmem : nested ∈ body.children)
    (hnested : nested.isKind .moduleDeclaration) (hvalue : isTypeOnlyStatement nested = false) :
    ∃ lowering, Meets s (.functionBody owner) body nested (.keep (.function lowering) [] []) := by
  have hmember := hmembers nested hmem
  have htoken := token?_of_isKind hnested
  obtain ⟨span, marks, statements, rfl⟩ := exists_of_isKind hkind
  obtain ⟨index, hindex⟩ := List.mem_iff_getElem?.1 hmem
  have hlowerable : isLowerable s.source statements nested := by
    rcases hmember.cases hvalue htoken with ⟨-, hlowerable⟩ | ⟨hother, -⟩
    · exact hlowerable
    · rw [hnested] at hother
      cases hother
  obtain ⟨action, haction, -⟩ : ∃ action, (actionsOf s ⟨.moduleBlock, span, .functionBody owner,
      statements⟩)[index]? = some action ∧ _ :=
    actions_getElem? hindex
  have hkept := action_of_statement hindex (plain_of_isStatement hmember.isStatement).2 haction
  rw [htoken, Option.isSome_none, if_neg Bool.false_ne_true,
    statementVerdict_namespace rfl hvalue hnested hlowerable] at hkept
  exact ⟨_, _, _, _, _, index, rfl, by decide, hindex, hkept ▸ haction⟩

end Body

end Erasure

open Erasure

variable {variant : Variant} {file text : String} {tree : SyntaxTree}

/-- In the body of each namespace that becomes a function, what is exported has one link to the
object of the namespace for each name, and what is not exported has none. No word `export` is left
in the body, and a namespace in it of which anything is there at run time becomes a function too. -/
theorem SyntaxTree.erase_links_exports (hparse : SyntaxTree.parseAs variant file text = .ok tree)
    {options : Options} {lowering : Lowering} {declaration : Node}
    (hlowered : Visits (.ofTree options text tree.root) .none tree.root (.function lowering)
      declaration) :
    namespaceName? text declaration.children = some lowering.name ∧
    ∃ body left leftBody parts, declaration.child? .moduleBlock = some body ∧
      left ∈ (tree.erase options).tree.root.descendants ∧ left.face = declaration.face ∧
      leftBody ∈ left.children ∧ leftBody.face = body.face ∧ leftBody.children = parts.flatten ∧
      List.Forall₂ (Linked text lowering.name) body.children parts ∧
      (∀ part ∈ leftBody.children,
        part.isToken .exportKeyword = false ∧ part.hasToken .exportKeyword = false) ∧
      ∀ nested ∈ body.children, nested.isKind .moduleDeclaration →
        isTypeOnlyStatement nested = false → ∃ lowering',
          Visits (.ofTree options text tree.root) .none tree.root (.function lowering') nested := by
  obtain ⟨rfl, htiles, -⟩ := SyntaxTree.parseAs_tiles hparse
  have hregular := (SyntaxTree.parseAs_regular hparse).of_mem hlowered.mem_descendants
  have hold : ∀ part ∈ declaration.descendants, part.label ≠ .inserted := by
    intro part hpart hlabel
    obtain ⟨i, j, hpart⟩ :=
      htiles.descendants part (descendants_subset hlowered.mem_descendants hpart)
    cases part with
    | inserted piece => simp [Tiles] at hpart
    | _ => cases hlabel
  obtain ⟨hkind, siblings, owner, hlowerable, hlowering⟩ : declaration.isKind .moduleDeclaration ∧
      ∃ siblings owner, isLowerable tree.source siblings declaration ∧
        lowering = Erasure.lowering tree.source owner declaration := by
    cases hlowered with
    | child _ hmeets =>
      obtain ⟨hkind, -, kind, span, hlowerable, hlowering⟩ := hmeets.isLowerable
      exact ⟨hkind, _, _, hlowerable, hlowering⟩
  obtain ⟨hvariable, hmodule⟩ := Bool.and_eq_true_iff.1 hlowerable
  obtain ⟨name, hname, -⟩ := (Option.any_eq_true _ _).1 hvariable
  obtain ⟨body, hbody, -⟩ := exists_body hmodule
  have hbodyKind : body.isKind .moduleBlock := List.find?_some hbody
  have hmembers : ∀ statement ∈ body.children,
      IsMember (Setting.ofTree options tree.source tree.root).source body.children statement :=
    fun statement => isMember_of_isLowerable hregular hold hlowerable hbody
  obtain ⟨piece, hmeets⟩ : ∃ piece, Meets (.ofTree options tree.source tree.root)
      (.function lowering) declaration body (.keep (.functionBody lowering.name) [] [piece]) :=
    meets_body hkind hbody
  obtain ⟨w, hreaches⟩ := hlowered.reaches {}
  obtain ⟨w', hhands⟩ := hmeets.hands w
  obtain ⟨parts, hparts, hlinked, hexport⟩ := visit_body hbodyKind hmembers lowering.name w'
  refine ⟨by rw [hlowering, hname]; simp [Erasure.lowering, hname], body, _, _, parts, hbody,
    hreaches.mem_descendants, face_visit _ _ w declaration, hhands.mem, face_visit _ _ w' body,
    hparts, hlinked, hexport, fun nested hmem hnested hvalue => ?_⟩
  obtain ⟨lowering', hfunction⟩ := exists_meets_nested hbodyKind hmembers hmem hnested hvalue
  exact ⟨lowering', (hlowered.child hmeets).child hfunction⟩

/-- A namespace with exports of all kinds. -/
def exportsOfAllKinds : String :=
  "namespace N \x7b export function f() \x7b\x7d export const a = 1; " ++
    "export namespace M \x7b export class C \x7b\x7d \x7d let x = 2; interface I \x7b\x7d \x7d"

/-- The function that the namespace with exports of all kinds becomes. -/
def linksOfAllKinds : String :=
  "var N;\n(function (N) \x7b function f() \x7b\x7d\nN.f = f; const a = N.a = 1; " ++
    "var M;\n(function (M) \x7b class C \x7b\x7d\nM.C = C; \x7d)(M = N.M || (N.M = \x7b\x7d)); " ++
    "let x = 2; \x7d)(N || (N = \x7b\x7d));"

theorem Erasure.exists_meets_function {s : Setting} {root declaration : Node}
    (hroot : root.isKind .sourceFile) (hmem : declaration ∈ root.children)
    (hkind : declaration.isKind .moduleDeclaration)
    (hvalue : isTypeOnlyStatement declaration = false)
    (hlowerable : isLowerable s.source root.children declaration) :
    ∃ lowering, Meets s .none root declaration (.keep (.function lowering) [] []) := by
  obtain ⟨span, marks, children, rfl⟩ := exists_of_isKind hroot
  refine ⟨lowering s.source none declaration, meets_of_childVerdict (by decide) (by decide)
    rfl rfl hmem (not_isToken_of_isKind hkind _) (isTypePart_of_isKind hkind)
    fun index => ?_⟩
  simp only [childVerdict, policy, token?_of_isKind hkind]
  exact statementVerdict_of_isLowerable rfl hkind hvalue hlowerable

/-- A function, a constant and a class are linked, and so is a namespace in the namespace. -/
theorem SyntaxTree.erase_links_exports_of_all_kinds :
    ∃ tree lowering declaration, SyntaxTree.parseAs .standard "a.ts" exportsOfAllKinds = .ok tree ∧
      Visits (.ofTree {} exportsOfAllKinds tree.root) .none tree.root (.function lowering)
        declaration ∧
      (tree.erase {}).tree.text = linksOfAllKinds ∧
      ∃ body leftBody parts, declaration.child? .moduleBlock = some body ∧
        leftBody ∈ (tree.erase {}).tree.root.descendants ∧ leftBody.children = parts.flatten ∧
        List.Forall₂ (Linked exportsOfAllKinds lowering.name) body.children parts := by
  obtain ⟨tree, hparse, hfile, ⟨declaration, hmem, hkind, hvalue, hlowerable⟩, htext⟩ : ∃ tree,
      SyntaxTree.parseAs .standard "a.ts" exportsOfAllKinds = .ok tree ∧
      tree.root.isKind .sourceFile ∧
      (∃ declaration ∈ tree.root.children, declaration.isKind .moduleDeclaration ∧
        isTypeOnlyStatement declaration = false ∧
        isLowerable exportsOfAllKinds tree.root.children declaration) ∧
      (tree.erase {}).tree.text = linksOfAllKinds :=
    SyntaxTree.exists_checked (by decide +kernel)
  obtain ⟨lowering, hmeets⟩ := exists_meets_function
    (s := .ofTree {} exportsOfAllKinds tree.root) hfile hmem hkind hvalue hlowerable
  have hlowered := Visits.here.child hmeets
  obtain ⟨-, body, left, leftBody, parts, hbody, hleft, -, hleftBody, -, hparts, hlinked, -⟩ :=
    SyntaxTree.erase_links_exports hparse hlowered
  exact ⟨tree, lowering, declaration, hparse, hlowered, htext, body, leftBody, parts, hbody,
    mem_descendants_of_mem_children hleftBody hleft, hparts, hlinked⟩

end Untype
