-- Enums and namespaces at the top of a file become variables. Each one that is
-- exported has an exported variable of its own, also if others have its name.
import Mathlib.Data.List.TakeDrop
import Untype.Proofs.Erasure.Entries
import Untype.Proofs.Erasure.Links
import Untype.Proofs.Tokens.Words

namespace Untype

open Untype.Node Erasure

namespace Erasure

variable {s : Setting} {source name : String} {child node statement : Node}
  {children part : List Node}
variable {lowering : Lowering} {span : Span} {marks : Marks} {enum : String} {i j : Nat}
  {parts : List (List Node)} {action : Action} {w : Walk} {front : List Node}

/-- The statement is an exported enum or namespace of this name that is there at run time. -/
def isExportedObject (source name : String) (statement : Node) : Bool :=
  (statement.isKind .enumDeclaration || statement.isKind .moduleDeclaration) &&
    statement.hasToken .exportKeyword && !isTypeOnlyStatement statement &&
    declaredName? source statement == some name

/-- The statement of the new tree starts with `export var name`. An enum is a piece of text. Of a
namespace the name is left, and `var` is the first piece of text. -/
def exportsVariable (source name : String) : Node → Bool
  | .inserted piece => piece.text.toList.takeWhile (· != ';') == ("export var " ++ name).toList
  | .branch .moduleDeclaration _ _ children =>
    match children.span (·.label != .inserted) with
    | (words, word :: next :: _) =>
      words.any (isToken .exportKeyword) && leafText source word == "var" &&
        next.name? source == some name
    | _ => false
  | _ => false

/-! ## Names of declarations -/

theorem name?_of_isClassFront (h : child.isClassFront) : child.name? source = none := by
  rcases Bool.or_eq_true_iff.1 h with hdecorator | hword
  · obtain ⟨span, marks, children, rfl⟩ := exists_of_isKind hdecorator
    rfl
  · obtain ⟨kind, htoken, hkind⟩ := (Option.any_eq_true _ _).1 hword
    rw [name?, htoken]
    cases kind <;> first | rfl | cases hkind

theorem declaredName?_of_front {rest : List Node} {word named : Node}
    (hchildren : node.children = front ++ word :: named :: rest)
    (hfront : ∀ part ∈ front, part.isClassFront) (hword : word.name? source = none)
    (hnamed : named.isToken .identifier) :
    declaredName? source node = some (named.text source) := by
  have hnone : front.findSome? (Node.name? source) = none :=
    List.findSome?_eq_none_iff.2 fun part hpart => name?_of_isClassFront (hfront part hpart)
  rw [declaredName?, hchildren, List.findSome?_append, hnone, Option.none_or, List.findSome?_cons,
    hword, List.findSome?_cons, name?_of_isToken hnamed rfl]

/-! ## Enums -/

theorem takeWhile_objectText (henum : ∀ c ∈ enum.toList, isSpellingChar c)
    (exported : Bool) (entries : List String) (baseIndent unit : String) :
    (objectText enum exported entries baseIndent unit).toList.takeWhile (· != ';') =
      ((if exported then "export " else "") ++ "var " ++ enum).toList := by
  have hhead : ∀ c ∈ ((if exported then "export " else "") ++ "var ").toList, (c != ';') :=
    List.all_eq_true.1 (by cases exported <;> decide)
  have hname : ∀ c ∈ enum.toList, (c != ';') := by
    intro c hc
    refine bne_iff_ne.2 ?_
    rintro rfl
    cases henum _ hc
  rw [objectText]
  simp only [String.append_assoc, String.toList_append] at hhead ⊢
  rw [← List.append_assoc, List.takeWhile_append_of_pos hhead, List.takeWhile_append_of_pos hname]
  simp

theorem exportsVariable_object {baseIndent unit : String} {exported : Bool} {entries : List String}
    {piece : Inserted} (henum : ∀ c ∈ enum.toList, isSpellingChar c)
    (htext : piece.text = objectText enum exported entries baseIndent unit) :
    exportsVariable source name (inserted piece) = (exported && enum == name) := by
  rw [exportsVariable, htext, takeWhile_objectText henum]
  cases exported with
  | false => simp
  | true =>
    rw [Bool.true_and, Bool.eq_iff_iff, beq_iff_eq, beq_iff_eq, if_pos rfl]
    simp [String.toList_inj]

/-- The name of an enum has only characters of words. -/
theorem enum_chars (hregular : node.Regular source)
    (htiles : node.Tiles source i j) (hkind : node.isKind .enumDeclaration)
    (hname : declaredName? source node = some enum) : ∀ c ∈ enum.toList, isSpellingChar c := by
  obtain ⟨span, marks, children, rfl⟩ := exists_of_isKind hkind
  obtain ⟨front, word, named, rest, rfl, hfront, hword, hnamed⟩ := hregular.branch.1 (by decide)
  have hnameless : word.name? source = none := by rw [name?, beq_iff_eq.1 hword]
  rw [declaredName?_of_front rfl hfront hnameless hnamed] at hname
  obtain rfl := Option.some.inj hname
  have hmem : named ∈ (branch .enumDeclaration span marks
      (front ++ word :: named :: rest)).children := by
    simp [Node.children]
  obtain ⟨i', j', hpart⟩ := htiles.descendants named
    (child_mem_descendants hmem)
  cases named with
  | leaf token =>
    have hread : token.Read source := by
      simp only [Tiles] at hpart
      exact hpart.1
    exact hread.identifier_chars (by simpa [isToken, token?] using hnamed)
  | _ => cases hnamed

/-! ## Namespaces -/

theorem forall₂_append_left {α β : Type} {R : α → β → Prop} {as bs : List α} {cs : List β}
    (h : List.Forall₂ R (as ++ bs) cs) :
    ∃ front back, cs = front ++ back ∧ List.Forall₂ R as front ∧ List.Forall₂ R bs back :=
  ⟨cs.take as.length, cs.drop as.length, (List.take_append_drop _ _).symm,
    (List.forall₂_take_append _ _ _ h.flip).flip, (List.forall₂_drop_append _ _ _ h.flip).flip⟩

/-- What becomes of the modifiers in front of a namespace. -/
theorem modifiers_visit
    (hfront : ∀ child ∈ front, child.isClassFront)
    (h : List.Forall₂ (fun child part => child.isTypePart = false →
      Becomes s child (functionAction s.source lowering child) part) front parts) :
    (∀ new ∈ parts.flatten, (new.label != .inserted)) ∧
      parts.flatten.any (isToken .exportKeyword) = front.any (isToken .exportKeyword) := by
  induction h with
  | nil => exact ⟨by simp, rfl⟩
  | @cons child part front parts hbecomes _ ih =>
    obtain ⟨hlabels, hany⟩ := ih fun child hchild => hfront child (List.mem_cons_of_mem _ hchild)
    obtain ⟨hpart, hold, haction⟩ : child.isTypePart = false ∧ (child.label != .inserted) ∧
        functionAction s.source lowering child = .stay := by
      rcases Bool.or_eq_true_iff.1 (hfront child List.mem_cons_self) with hdecorator | hword
      · obtain ⟨span, marks, children, rfl⟩ := exists_of_isKind hdecorator
        exact ⟨rfl, rfl, rfl⟩
      · obtain ⟨kind, htoken, hkind⟩ := (Option.any_eq_true _ _).1 hword
        cases child with
        | leaf token =>
          obtain rfl := Option.some.inj htoken
          refine ⟨rfl, rfl, ?_⟩
          unfold functionAction
          split <;> simp_all [label, TokenKind.isModifierWord]
        | _ => cases htoken
    have hbecomes := hbecomes hpart
    rw [haction] at hbecomes
    obtain ⟨w, rfl⟩ := hbecomes.of_stay
    have hlabel := (label_visit s .none w child).1
    refine ⟨?_, ?_⟩
    · rw [List.flatten_cons, List.singleton_append]
      exact List.forall_mem_cons.2 ⟨by rwa [hlabel], hlabels⟩
    · rw [List.flatten_cons, List.singleton_append, List.any_cons, List.any_cons, hany,
        isToken_of_label_eq hlabel]

/-- The word of a namespace becomes `var`. -/
theorem Becomes.var
    (hword : child.isToken .namespaceKeyword ∨ child.isToken .moduleKeyword)
    (h : Becomes s child (functionAction s.source lowering child) part) :
    ∃ piece, part = [inserted piece] ∧ piece.text = "var" := by
  have haction : functionAction s.source lowering child = replaceToken s.source child "var" := by
    cases child with
    | leaf token =>
      rcases hword with hword | hword
      all_goals
        obtain hkind := Option.some.inj (beq_iff_eq.1 hword)
        simp [functionAction, label, hkind]
    | _ => rcases hword with hword | hword <;> cases hword
  rw [haction] at h
  cases h with
  | replaced hpiece =>
    obtain ⟨piece, rfl, htext⟩ := hpiece
    exact ⟨piece, rfl, htext⟩

theorem Becomes.named (hname : child.isToken .identifier)
    (h : Becomes s child (functionAction s.source lowering child) part) :
    ∃ new back, part = new :: back ∧ new.face = child.face := by
  cases child with
  | leaf token =>
    obtain hkind := Option.some.inj (beq_iff_eq.1 hname)
    simp only [functionAction, label, hkind] at h
    cases h with
    | kept hfront hback =>
      cases hfront
      exact ⟨_, _, rfl, face_visit s _ _ _⟩
  | _ => cases hname

/-- The head of a namespace with a plain name. -/
theorem exists_namespaceHead (hregular : node.Regular source)
    (hkind : node.isKind .moduleDeclaration)
    (hname : namespaceName? source node.children = some name) :
    ∃ front word named rest, node.children = front ++ word :: named :: rest ∧
      (∀ part ∈ front, part.isClassFront) ∧
      (word.isToken .namespaceKeyword ∨ word.isToken .moduleKeyword) ∧
      named.isToken .identifier ∧
      node.hasToken .exportKeyword = front.any (isToken .exportKeyword) := by
  obtain ⟨span, marks, children, rfl⟩ := exists_of_isKind hkind
  obtain ⟨⟨front, word, rest, rfl, hfront, hhead, hrest⟩, -⟩ := hregular.branch.1 (by decide)
  unfold namespaceName? at hname
  split at hname
  · cases hname
  rename_i hplain
  simp only [Node.children, List.any_append, List.any_cons, Bool.or_eq_true, not_or] at hplain
  obtain ⟨-, ⟨-, hglobal⟩, hplain⟩ := hplain
  obtain ⟨hword, hnamed⟩ := hhead.resolve_left hglobal
  cases rest with
  | nil => cases hnamed
  | cons named rest =>
    simp only [List.any_cons, Bool.or_eq_true, not_or] at hplain
    obtain ⟨⟨⟨-, hstring⟩, -⟩, -⟩ := hplain
    refine ⟨front, word, named, rest, rfl, hfront, hword,
      (Bool.or_eq_true_iff.1 hnamed).resolve_right hstring, ?_⟩
    have hnotWord : word.isToken .exportKeyword = false := by
      rcases hword with hword | hword <;> exact isToken_of_ne hword (by decide)
    have hnotRest : (named :: rest).any (isToken .exportKeyword) = false :=
      List.any_eq_false.2 fun part hpart => by simp [hrest part hpart]
    rw [hasToken, Node.children, List.any_append, List.any_cons, hnotWord, hnotRest, Bool.or_false,
      Bool.or_false]

/-- A namespace that is a function is exported as it was. -/
theorem exportsVariable_visit (hregular : node.Regular s.source)
    (hkind : node.isKind .moduleDeclaration) {plain : String}
    (hname : namespaceName? s.source node.children = some plain) (hnested : lowering.nested = false)
    (w : Walk) : exportsVariable s.source name (visit s (.function lowering) w node).node =
      (node.hasToken .exportKeyword && declaredName? s.source node == some name) := by
  obtain ⟨front, word, named, rest, hchildren, hfront, hword, hnamed, hexport⟩ :=
    exists_namespaceHead hregular hkind hname
  obtain ⟨span, marks, children, rfl⟩ := exists_of_isKind hkind
  obtain rfl : children = front ++ word :: named :: rest := hchildren
  have hnameless : word.name? s.source = none := by
    rcases hword with hword | hword <;> rw [name?, beq_iff_eq.1 hword]
  rw [declaredName?_of_front rfl hfront hnameless hnamed, hexport]
  have hpolicy : policy .moduleDeclaration ≠ .typeSyntax := by decide
  obtain ⟨parts, hnodes, hparts⟩ := visit_partsOf hpolicy s (.function lowering) w span marks
    (front ++ word :: named :: rest)
  have hbecomes : List.Forall₂ (fun child part => child.isTypePart = false →
      Becomes s child (functionAction s.source lowering child) part)
      (front ++ word :: named :: rest) parts := by
    refine hparts.forall₂ fun index child action part hchild haction hbecomes hpart => ?_
    rw [actions_getElem?_of_not_holdsList rfl, hchild, Option.map_some,
      verdict_of_function (by simp [hnested]) hpart] at haction
    obtain rfl := Option.some.inj haction
    exact hbecomes
  obtain ⟨frontParts, backParts, rfl, hfrontParts, hbackParts⟩ := forall₂_append_left hbecomes
  obtain ⟨wordPart, laterParts, hwordPart, hlaterParts, rfl⟩ :=
    List.forall₂_cons_left_iff.1 hbackParts
  obtain ⟨namedPart, restParts, hnamedPart, -, rfl⟩ := List.forall₂_cons_left_iff.1 hlaterParts
  obtain ⟨hlabels, hany⟩ := modifiers_visit hfront hfrontParts
  obtain ⟨piece, rfl, htext⟩ :=
    (hwordPart (hword.elim isTypePart_of_isToken isTypePart_of_isToken)).var hword
  obtain ⟨new, back, rfl, hface⟩ := (hnamedPart (isTypePart_of_isToken hnamed)).named hnamed
  have hlabel := (label_visit s (.function lowering) w (branch .moduleDeclaration span marks
    (front ++ word :: named :: rest))).1
  have hnewName : new.name? s.source = some (named.text s.source) := by
    obtain ⟨hlabel, hspan⟩ := Prod.mk.inj hface
    rw [name?, token?_of_label_eq hlabel, beq_iff_eq.1 hnamed, Node.text, Node.text, hspan]
  generalize (visit s (.function lowering) w (branch .moduleDeclaration span marks
    (front ++ word :: named :: rest))).node = left at hnodes hlabel
  cases left with
  | branch kind span' marks' nodes =>
    cases hlabel
    obtain rfl : nodes = frontParts.flatten ++ inserted piece :: new ::
        (back ++ restParts.flatten) := by
      simpa [Node.children] using hnodes
    rw [exportsVariable, List.span_eq_takeWhile_dropWhile, List.takeWhile_append_of_pos hlabels,
      List.dropWhile_append_of_pos hlabels]
    simp [label, leafText, htext, hnewName, hany]
  | _ => cases hlabel

/-! ## Statements -/

theorem finding_eq_none {kind : NodeKind} {task : Task}
    {index : Nat} (hpolicy : policy kind ≠ .typeSyntax)
    (hclean : (visit s task w (branch kind span marks children)).walk.findings = [])
    (hchild : children[index]? = some child) :
    (verdict s ⟨kind, span, task, children⟩ index child).finding = none := by
  rw [visit, if_neg (by simpa using hpolicy)] at hclean
  have hnone := List.subset_nil.1 (Eq.subst hclean findings_subset_visitAll)
  simp only [List.append_eq_nil_iff, List.filterMap_eq_nil_iff] at hnone
  refine hnone.2 _ (List.mem_of_getElem? (i := index) ?_)
  simp [verdicts, hchild]

theorem verdict_of_root (index : Nat) (htoken : statement.token? = none)
    (hpart : statement.isTypePart = false) :
    verdict s ⟨.sourceFile, span, .none, children⟩ index statement =
      statementVerdict s ⟨.sourceFile, span, .none, children⟩ statement := by
  rw [verdict_of_isCommon (by simp) rfl (by simp [Task.dropsExport]) hpart]
  simp [childVerdict, policy, htoken]

theorem statementVerdict_of_not_object {scope : Scope} (htask : scope.task = .none)
    (henum : statement.isKind .enumDeclaration = false)
    (hmodule : statement.isKind .moduleDeclaration = false) :
    (statementVerdict s scope statement).action = .remove .unit ∨
      ∃ task, (statementVerdict s scope statement).action = .keep task [] [] := by
  have hnone : exportOwner? scope statement = none := by simp [exportOwner?, htask]
  have hfate := statementVerdict_fate s scope statement
  generalize (statementVerdict s scope statement).action = action at hfate
  cases hfate with
  | remove => exact .inl rfl
  | stay | imports | exports => exact .inr ⟨_, rfl⟩
  | assigned howner | constants howner => cases hnone.symm.trans howner
  | function hkind => cases hmodule.symm.trans hkind
  | enum hkind => cases henum.symm.trans hkind

theorem exportsVariable_of_label (hold : node.label ≠ .inserted)
    (hmodule : node.isKind .moduleDeclaration = false) :
    exportsVariable source name node = false := by
  cases node with
  | leaf token => rfl
  | inserted piece => exact absurd rfl hold
  | branch kind span marks children =>
    unfold exportsVariable
    split
    · rename_i heq
      cases heq
    · rename_i heq
      cases heq
      cases hmodule
    · rfl

theorem countP_eq_toNat {p : Node → Bool} {b : Bool} (h : p node = b) :
    [node].countP p = b.toNat := by
  cases b <;> simp [h]

section Statements

variable {scope : Scope} (htask : scope.task = .none)
  (hvalue : isTypeOnlyStatement statement = false)
  (hfinding : (statementVerdict s scope statement).finding = none)
  (h : Becomes s statement (statementVerdict s scope statement).action part)

include hvalue hfinding h

theorem countP_enum (hregular : statement.Regular s.source)
    (htiles : statement.Tiles s.source i j) (hkind : statement.isKind .enumDeclaration) :
    part.countP (exportsVariable s.source name) =
      (isExportedObject s.source name statement).toNat := by
  have hverdict : statementVerdict s scope statement = enumVerdict s statement := by
    rw [statementVerdict_of_value hvalue, valueVerdict, beq_iff_eq.1 hkind]
  rw [hverdict] at h hfinding
  unfold enumVerdict at h hfinding
  split at h
  · rename_i text htext
    obtain ⟨enum, values, hvalued, rfl⟩ := enumText?_eq_some htext
    cases h with
    | replaced hpiece =>
      obtain ⟨left, rfl, hleft⟩ := hpiece
      have hchars := enum_chars hregular htiles hkind hvalued.name
      have hname : declaredName? s.source statement = some enum := hvalued.name
      refine countP_eq_toNat ?_
      rw [exportsVariable_object hchars (hleft.trans (enumText_eq _ _ _ _ _))]
      simp [isExportedObject, hkind, hvalue, hname]
  · rename_i hnone
    rw [hnone] at hfinding
    cases hfinding

include htask

theorem countP_namespace (hscope : scope.kind ≠ .moduleBlock)
    (hregular : statement.Regular s.source) (hkind : statement.isKind .moduleDeclaration) :
    part.countP (exportsVariable s.source name) =
      (isExportedObject s.source name statement).toNat := by
  cases hlowerable : isLowerable s.source scope.children statement with
  | true =>
    obtain ⟨plain, hname, -⟩ := (Option.any_eq_true _ _).1 (Bool.and_eq_true_iff.1 hlowerable).1
    rw [statementVerdict_of_isLowerable (by simp [allowsLowering, hscope]) hkind hvalue
      hlowerable] at h
    obtain ⟨w, rfl⟩ := h.of_stay
    have howner : exportOwner? scope statement = none := by simp [exportOwner?, htask]
    refine countP_eq_toNat ?_
    rw [exportsVariable_visit hregular hkind hname (by simp [lowering, howner])]
    simp [isExportedObject, hkind, hvalue]
  | false =>
    simp [statementVerdict_of_value hvalue, valueVerdict, beq_iff_eq.1 hkind, namespaceVerdict,
      isTypeOnlyModule_eq_false hkind hvalue, hlowerable] at hfinding

end Statements

theorem countP_other (hold : statement.label ≠ .inserted)
    (henum : statement.isKind .enumDeclaration = false)
    (hmodule : statement.isKind .moduleDeclaration = false)
    (haction : action = .remove .unit ∨ ∃ task, action = .keep task [] [])
    (h : Becomes s statement action part) :
    part.countP (exportsVariable s.source name) =
      (isExportedObject s.source name statement).toNat := by
  rw [isExportedObject, henum, hmodule]
  rcases haction with rfl | ⟨task, rfl⟩
  · cases h
    rfl
  · obtain ⟨w, rfl⟩ := h.of_stay
    have hlabel := (label_visit s task w statement).1
    rw [List.countP_singleton, exportsVariable_of_label (hlabel ▸ hold) (by rwa [isKind_visit])]
    rfl

/-- What becomes of a statement at the top of a file exports a variable if the statement is an
exported enum or namespace. -/
theorem countP_part {index : Nat}
    (hchild : children[index]? = some statement) (hregular : statement.Regular s.source)
    (htiles : statement.Tiles s.source i j) (hstatement : statement.isStatement)
    (hfinding : (verdict s ⟨.sourceFile, span, .none, children⟩ index statement).finding = none)
    (haction : (actionsOf s ⟨.sourceFile, span, .none, children⟩)[index]? = some action)
    (h : Becomes s statement action part) :
    part.countP (exportsVariable s.source name) =
      (isExportedObject s.source name statement).toNat := by
  have hpart := (plain_of_isStatement hstatement).2
  rw [actions_getElem?_of_not_holdsList rfl, hchild, Option.map_some] at haction
  obtain rfl := Option.some.inj haction
  cases statement with
  | inserted piece => simp [Tiles] at htiles
  | leaf token =>
    refine countP_other (by simp [label]) rfl rfl ?_ h
    rw [verdict_of_isCommon (by simp) rfl (by simp [Task.dropsExport]) hpart]
    exact .inr ⟨_, rfl⟩
  | branch kind span' marks nodes =>
    rw [verdict_of_root index rfl hpart] at h hfinding
    cases hvalue : isTypeOnlyStatement (branch kind span' marks nodes) with
    | true =>
      rw [statementVerdict_of_isTypeOnly s _ hvalue] at h
      cases h
      simp [isExportedObject, hvalue]
    | false =>
      cases henum : (branch kind span' marks nodes).isKind .enumDeclaration with
      | true => exact countP_enum hvalue hfinding h hregular htiles henum
      | false =>
        cases hmodule : (branch kind span' marks nodes).isKind .moduleDeclaration with
        | true => exact countP_namespace rfl hvalue hfinding h (by simp) hregular hmodule
        | false =>
          refine countP_other (by simp [label]) henum hmodule ?_ h
          exact statementVerdict_of_not_object rfl henum hmodule

theorem countP_flatten {p q : Node → Bool}
    (h : List.Forall₂ (fun child part => part.countP p = (q child).toNat) children parts) :
    parts.flatten.countP p = children.countP q := by
  induction h with
  | nil => rfl
  | @cons child part children parts hpart _ ih =>
    rw [List.flatten_cons, List.countP_append, hpart, ih, List.countP_cons, Nat.add_comm]
    cases q child <;> rfl

theorem countP_visit
    (hregular : (branch .sourceFile span marks children).Regular s.source)
    (htiles : (branch .sourceFile span marks children).Tiles s.source i j)
    (hclean : (visit s .none w (branch .sourceFile span marks children)).walk.findings = []) :
    (visit s .none w (branch .sourceFile span marks children)).node.children.countP
        (exportsVariable s.source name) =
      children.countP (isExportedObject s.source name) := by
  have hpolicy : policy .sourceFile ≠ .typeSyntax := by decide
  obtain ⟨parts, hnodes, hparts⟩ := visit_partsOf hpolicy s .none w span marks children
  rw [hnodes]
  refine countP_flatten (hparts.forall₂ fun index child action part hchild haction hbecomes => ?_)
  have hmem := List.mem_of_getElem? hchild
  obtain ⟨i', j', hchildTiles⟩ := htiles.descendants child
    (child_mem_descendants hmem)
  obtain ⟨hshape, -, hchildren⟩ := hregular.branch
  exact countP_part hchild (hchildren child hmem) hchildTiles (hshape (by decide) child hmem)
    (finding_eq_none hpolicy hclean hchild) haction hbecomes

end Erasure

/-- Where nothing is told, each exported enum and each exported namespace at the top of a file is an
exported variable of its own. So a name is exported once for each of them that has it. -/
theorem SyntaxTree.erase_exports_variables {variant : Variant} {file text : String}
    {tree : SyntaxTree} (hparse : SyntaxTree.parseAs variant file text = .ok tree)
    {options : Options} (hclean : (tree.erase options).findings = []) (name : String) :
    (tree.erase options).tree.root.children.countP (exportsVariable text name) =
      tree.root.children.countP (isExportedObject text name) := by
  have hregular := SyntaxTree.parseAs_regular hparse
  obtain ⟨rfl, htiles, statements, token, hroot, -⟩ := SyntaxTree.parseAs_tiles hparse
  have hvisit :
      (visit (.ofTree options tree.source tree.root) .none {} tree.root).walk.findings = [] :=
    hclean
  change (visit (.ofTree options tree.source tree.root) .none {} tree.root).node.children.countP
    _ = _
  generalize hsetting : Setting.ofTree options tree.source tree.root = s at hvisit ⊢
  have hsource : tree.source = s.source := by rw [← hsetting]; rfl
  rw [hroot] at hregular htiles hvisit ⊢
  rw [hsource] at hregular htiles ⊢
  exact countP_visit hregular htiles hvisit

/-- An exported enum, a namespace of its name that is not, and another exported namespace. -/
def exportedObjects : String :=
  "export enum A \x7b B \x7d\nnamespace A \x7b export const c = 1; \x7d\n" ++
    "export namespace D \x7b f(); \x7d"

/-- The variables that they become. -/
def exportedVariables : String :=
  "export var A;\n(function (A) \x7b\n    A[A[\"B\"] = 0] = \"B\";\n" ++
    "\x7d)(A || (A = \x7b\x7d));\nvar A;\n" ++
    "(function (A) \x7b const c = A.c = 1; \x7d)(A || (A = \x7b\x7d));\n" ++
    "export var D;\n(function (D) \x7b f(); \x7d)(D || (D = \x7b\x7d));"

theorem SyntaxTree.erase_exports_variables_once :
    ∃ tree, SyntaxTree.parseAs .standard "a.ts" exportedObjects = .ok tree ∧
      (tree.erase {}).findings = [] ∧ (tree.erase {}).tree.text = exportedVariables ∧
      (tree.erase {}).tree.root.children.countP (exportsVariable exportedObjects "A") = 1 ∧
      (tree.erase {}).tree.root.children.countP (exportsVariable exportedObjects "D") = 1 :=
  (SyntaxTree.exists_checked (by decide +kernel)).imp fun tree
    (htree : _ ∧ _ ∧ _ ∧ tree.root.children.countP (isExportedObject _ "A") = 1 ∧
      tree.root.children.countP (isExportedObject _ "D") = 1) =>
    have hcount := SyntaxTree.erase_exports_variables htree.1 htree.2.1
    ⟨htree.1, htree.2.1, htree.2.2.1, (hcount "A").trans htree.2.2.2.1,
      (hcount "D").trans htree.2.2.2.2⟩

/-- Two exported enums of one name. -/
def mergedEnums : String := "export enum E \x7b A \x7d\nexport enum E \x7b B \x7d"

/-- The variables that they become. -/
def mergedVariables : String :=
  "export var E;\n(function (E) \x7b\n    E[E[\"A\"] = 0] = \"A\";\n" ++
    "\x7d)(E || (E = \x7b\x7d));\nexport var E;\n" ++
    "(function (E) \x7b\n    E[E[\"B\"] = 0] = \"B\";\n\x7d)(E || (E = \x7b\x7d));"

/-- Two exported enums of one name export the name twice. -/
theorem SyntaxTree.erase_exports_name_twice :
    ∃ tree, SyntaxTree.parseAs .standard "a.ts" mergedEnums = .ok tree ∧
      (tree.erase {}).findings = [] ∧ (tree.erase {}).tree.text = mergedVariables ∧
      (tree.erase {}).tree.root.children.countP (exportsVariable mergedEnums "E") = 2 :=
  SyntaxTree.exists_checked (by decide +kernel)

end Untype
