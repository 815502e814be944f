-- An expression stays one. No statement that is an expression starts like a
-- block, a function or a class when its types are gone, and no body of an arrow
-- function starts like a block. Only `async` is not looked for: a type in front
-- of an asynchronous function leaves what is read as a declaration.
import Untype.Proofs.Erasure.Restricted

namespace Untype

open Untype.Node Text

namespace Node

/-- What is printed of the node starts with something that is no token of these kinds. -/
def StartsWithout (kinds : List TokenKind) (node : Node) : Prop :=
  ∃ first back, node.leaves = first :: back ∧ ∀ kind ∈ kinds, first.isToken kind = false

/-- A statement that starts with such a token is no expression. -/
abbrev statementStarts : List TokenKind := [.openBrace, .functionKeyword, .classKeyword]

/-- A statement is read as an expression, unless it starts with an `async` that had `function`
behind it on its line, which tells where that comes from. -/
def ReadsAsExpression (text : String) (exposed : Prop) (node : Node) : Prop :=
  node.StartsWithout statementStarts ∧ ∀ first ∈ node.leaves.head?,
    first.isToken .asyncKeyword → first.PrecedesFunction text → exposed

/-- The body of an arrow function, its last child, starts like a block only if it is one. -/
def KeepsBody (node : Node) : Prop :=
  ∃ body, node.children.getLast? = some body ∧
    (body.isKind .block ∨ body.StartsWithout [.openBrace])

end Node

namespace Erasure

open Step

variable {s : Setting} {task : Task} {kind : NodeKind} {span : Span} {marks : Marks}
  {node part first leaf : Node} {children back : List Node} {text : String} {exposed : Prop}

theorem readsAsExpression_of_startsExpression (h : leaf.StartsExpression text)
    (hlabel : first.label = leaf.label) (hspan : first.span = leaf.span)
    (hleaves : part.leaves = first :: back) : part.ReadsAsExpression text exposed := by
  refine ⟨⟨first, back, hleaves, ?_⟩, ?_⟩
  · simp [isToken_of_label_eq hlabel, h.block, h.function, h.class']
  · rw [hleaves]
    rintro _ ⟨⟩ hasync hfunction
    rw [isToken_of_label_eq hlabel] at hasync
    unfold PrecedesFunction at hfunction
    rw [hspan] at hfunction
    exact absurd hfunction (h.async hasync)

/-! ## Operands -/

/-- An operand keeps its first leaf, or a type in angle brackets is gone from its start and what
follows starts no statement of another sort. -/
theorem Heads.leaf_cases {passed : List Node} (h : Heads text .statementStart node passed leaf)
    (hregular : node.Regular s.source) :
    leaf = node.firstLeaf ∨ node.firstLeaf.isToken .lessThan ∧
      ∀ kind ∈ statementStarts, leaf.isToken kind = false := by
  have hless : ∀ {span : Span} {marks : Marks} {opening type closing operand : Node},
      (branch .typeAssertionExpression span marks [opening, type, closing, operand]).Regular
        s.source →
      (branch .typeAssertionExpression span marks
        [opening, type, closing, operand]).firstLeaf.isToken .lessThan := by
    intro span marks opening type closing operand hregular
    obtain ⟨_, _, _, _, ⟨⟩, hopening, -⟩ := hregular.branch.1 (by simp)
    rwa [firstLeaf, firstLeafOf, firstLeaf_of_isLeaf (isLeaf_of_isToken hopening)]
  induction h with
  | here => exact .inl rfl
  | first _ _ ih => exact ih (hregular.branch.2.2 _ List.mem_cons_self)
  | wrapped => exact .inr ⟨hless hregular, fun _ _ => rfl⟩
  | asserted hmisread _ ih =>
    refine .inr ⟨hless hregular, ?_⟩
    rcases ih (hregular.branch.2.2 _ (by simp)) with rfl | ⟨-, h⟩
    · simpa [isMisread, and_assoc] using hmisread
    · exact h
  | @arrow _ _ types parameters rest htypes _ hother =>
    have hlist := hregular.branch.2.2 types List.mem_cons_self
    obtain ⟨span, marks, children, rfl⟩ := exists_of_isKind htypes
    obtain ⟨opening, rest, rfl, hopening⟩ := exists_head (hlist.branch.1 (by simp))
    refine .inr ⟨?_, ?_⟩
    · change opening.firstLeaf.isToken .lessThan
      rwa [firstLeaf_of_isLeaf (isLeaf_of_isToken hopening)]
    · simp [hother]

/-- What is printed of an operand where a statement could start. -/
theorem operand_leaves {passed : List Node} (h : Heads s.source .statementStart node passed leaf)
    (hregular : node.Regular s.source) {steps : List Step} (hcomes : ComesTo passed leaf steps)
    (w : Walk) :
    ∃ first back, leavesAlong s.source w steps = first :: back ∧
      (first.label = node.firstLeaf.label ∧ first.span = node.firstLeaf.span ∨
        node.firstLeaf.isToken .lessThan ∧ ∀ kind ∈ statementStarts,
          first.isToken kind = false) := by
  obtain ⟨w', back, -, hleaves⟩ := hcomes.leaves s.source w
  refine ⟨_, back, hleaves, ?_⟩
  rw [label_visitLeaf, span_visitLeaf]
  rcases h.leaf_cases hregular with rfl | ⟨hless, h⟩
  · exact .inl ⟨rfl, rfl⟩
  · refine .inr ⟨hless, fun kind hkind => ?_⟩
    rw [isToken_of_label_eq label_visitLeaf]
    exact h kind hkind

/-! ## Statements and bodies -/

theorem not_isToken_of_firstLeaf {kind : TokenKind} (h : node.firstLeaf.isToken kind = false) :
    node.isToken kind = false := by
  cases node with
  | branch kind span marks children => rfl
  | leaf token => exact h
  | inserted piece => rfl

/-- The expression of a statement comes first. -/
theorem comesTo_statement (htask : task.isCommon)
    (hregular : (branch .expressionStatement span marks children).Regular s.source) :
    ∃ value stop passed leaf, children = value :: stop ∧ value.Regular s.source ∧
      value.firstLeaf.StartsExpression s.source ∧ Heads s.source .statementStart value passed leaf ∧
      ComesTo passed leaf (steps s task (branch .expressionStatement span marks children)) := by
  obtain ⟨hshape, -, hchildren⟩ := hregular.branch
  obtain ⟨value, stop, rfl, -, hoperand, hstarts⟩ := hshape nofun
  have hexport := not_isToken_of_firstLeaf hstarts.export'
  have haction : (actionsOf s ⟨.expressionStatement, span, task, value :: stop⟩)[0]? =
        some (.keep (.operand .statementStart) [] []) :=
    action_plain value (.inl rfl) nofun htask (by simp [hexport]) rfl
      (not_isTypePart_of_isOperand hoperand)
  have hvalue := hchildren value List.mem_cons_self
  obtain ⟨passed, leaf, hheads, hcomes⟩ :=
    comesTo_operand (s := s) .statementStart value hvalue hoperand
  exact ⟨value, stop, passed, leaf, rfl, hvalue, hstarts, hheads,
    comesTo_branch [] (by decide) (by simp) haction nofun hcomes⟩

/-- The expression of a statement is printed first. -/
theorem visit_statement (htask : task.isCommon)
    (hregular : (branch .expressionStatement span marks children).Regular s.source) (w : Walk) :
    (visit s task w (branch .expressionStatement span marks children)).node.ReadsAsExpression
      s.source ((branch .expressionStatement span marks children).firstLeaf.isToken .lessThan) := by
  obtain ⟨value, stop, passed, leaf, rfl, hvalue, hstarts, hheads, hcomes⟩ :=
    comesTo_statement htask hregular
  have hleaves :=
    (visit_follows s (branch .expressionStatement span marks (value :: stop)) task w).1
  obtain ⟨first, back, hsteps, hfirst⟩ := operand_leaves hheads hvalue hcomes w
  rcases hfirst with ⟨hlabel, hspan⟩ | ⟨hless, hfirst⟩
  · exact readsAsExpression_of_startsExpression hstarts hlabel hspan (hleaves.trans hsteps)
  · exact ⟨⟨first, back, hleaves.trans hsteps, hfirst⟩, fun _ _ _ _ => hless⟩

/-- The body of an arrow function is its last child, behind the parameters. -/
theorem exists_arrowBody (h : NodeKind.HasShape text .arrowFunction children) :
    ∃ front body, children = front ++ [body] ∧ front ≠ [] ∧ body.isArrowBody ∧
      body.isTypePart = false := by
  obtain ⟨⟨word, types, parameters, rest, hchildren, harrow⟩, hlast⟩ := h
  obtain ⟨body, hlast, hbody⟩ := (Option.any_eq_true _ _).1 hlast
  obtain ⟨front, rfl⟩ := List.getLast?_eq_some_iff.1 hlast
  refine ⟨front, body, rfl, ?_, hbody, ?_⟩
  · rintro rfl
    -- The parameters are no body.
    have hparameters : parameters ∈ [] ++ [body] := hchildren ▸ by simp
    obtain rfl : parameters = body := by simpa using hparameters
    rcases harrow.parameters with hlist | ⟨name, rfl, -⟩
    · obtain ⟨span, marks, children, rfl⟩ := exists_of_isKind hlist
      cases hbody
    · cases hbody
  · rcases Bool.or_eq_true_iff.1 hbody with hblock | hoperand
    · exact isTypePart_of_isKind hblock
    · exact not_isTypePart_of_isOperand (Bool.and_eq_true_iff.1 hoperand).1

/-- The last child of a node stays last, if it is kept alone. -/
theorem getLast?_visit {front : List Node} {task' : Task} (hpolicy : policy kind ≠ .typeSyntax)
    (haction : (actionsOf s ⟨kind, span, task, front ++ [node]⟩)[front.length]? =
      some (.keep task' [] []))
    (marks : Marks) (w : Walk) :
    ∃ w', (visit s task w (branch kind span marks (front ++ [node]))).node.children.getLast? =
      some (visit s task' w' node).node := by
  obtain ⟨parts, hnodes, hparts⟩ := visit_partsOf hpolicy s task w span marks (front ++ [node])
  have hchild : (front ++ [node])[front.length]? = some node := by simp
  obtain ⟨part, hpart, hbecomes⟩ := hparts.exists_part hchild haction
  obtain ⟨w', rfl⟩ := hbecomes.of_stay
  obtain ⟨before, after, hflatten, -, hafter⟩ := hparts.around hpart
  obtain rfl : after = [] := by
    refine List.eq_nil_iff_forall_not_mem.2 fun new hnew => ?_
    obtain ⟨place, hplace, child, -, -, hchild, -⟩ := hafter new hnew
    have hlt := (List.getElem?_eq_some_iff.1 hchild).1
    simp at hlt
    omega
  exact ⟨w', by simp [hnodes, hflatten]⟩

/-- The body of an arrow function is printed last, and starts like a block only if it is one. -/
theorem visit_arrow (htask : task.isCommon) (hplain : task.isPlain)
    (hregular : (branch .arrowFunction span marks children).Regular s.source) (w : Walk) :
    (visit s task w (branch .arrowFunction span marks children)).node.KeepsBody := by
  obtain ⟨hshape, -, hchildren⟩ := hregular.branch
  obtain ⟨front, body, rfl, -, hbody, hpart⟩ := exists_arrowBody (hshape nofun)
  have hexport : task.dropsExport = false := by
    cases task <;> first | rfl | cases hplain
  generalize htask' : childTask s ⟨.arrowFunction, span, task, front ++ [body]⟩ front.length body =
    task'
  have haction : (actionsOf s ⟨.arrowFunction, span, task, front ++ [body]⟩)[front.length]? =
        some (.keep task' [] []) := by
    rw [← htask']
    exact action_plain body (.inr rfl) nofun htask (by simp [hexport]) (by simp) hpart
  obtain ⟨w', hlast⟩ := getLast?_visit (by decide) haction marks w
  refine ⟨_, hlast, ?_⟩
  cases hblock : body.isKind .block with
  | true =>
    left
    rwa [isKind, kind?_of_label_eq (label_visit s task' w' body).1]
  | false =>
    obtain ⟨hoperand, hbrace⟩ : body.isOperand ∧ body.firstLeaf.isToken .openBrace = false := by
      simpa [isArrowBody, hblock] using hbody
    obtain rfl : Task.operand .statementStart = task' := by simpa [childTask, hblock] using htask'
    have hregular := hchildren body (by simp)
    obtain ⟨passed, leaf, hheads, hcomes⟩ :=
      comesTo_operand (s := s) .statementStart body hregular hoperand
    obtain ⟨first, back, hsteps, hfirst⟩ := operand_leaves hheads hregular hcomes w'
    refine .inr ⟨first, back, (visit_follows s body _ w').1.trans hsteps, ?_⟩
    rw [List.forall_mem_singleton]
    rcases hfirst with ⟨hlabel, -⟩ | ⟨-, hfirst⟩
    · rwa [isToken_of_label_eq hlabel]
    · exact hfirst _ List.mem_cons_self

/-! ## Trees -/

theorem source_statement (hregular : node.Regular text) (hkind : node.isKind .expressionStatement)
    (hleaves : part.leaves = first :: back) (hlabel : first.label = node.firstLeaf.label)
    (hspan : first.span = node.firstLeaf.span) : part.ReadsAsExpression text exposed := by
  obtain ⟨span, marks, nodes, rfl⟩ := exists_of_isKind hkind
  obtain ⟨value, stop, rfl, -, -, hstarts⟩ := hregular.branch.1 (by decide)
  exact readsAsExpression_of_startsExpression hstarts hlabel hspan hleaves

/-- An arrow function of the source keeps its body. -/
theorem source_arrow {i j : Nat} (hregular : node.Regular text) (htiles : node.Tiles text i j)
    (hkind : node.isKind .arrowFunction)
    (hlast : 1 < node.children.length → part.children.getLast? = node.children.getLast?) :
    part.KeepsBody := by
  obtain ⟨span, marks, nodes, rfl⟩ := exists_of_isKind hkind
  obtain ⟨front, body, rfl, hfront, hbody, -⟩ := exists_arrowBody (hregular.branch.1 (by decide))
  have hmem : body ∈ (branch .arrowFunction span marks (front ++ [body])).descendants :=
    child_mem_descendants (List.mem_append_right _ List.mem_cons_self)
  obtain ⟨k, l, hbodyTiles⟩ := htiles.descendants body hmem
  have hlength : 1 < (front ++ [body]).length := by simpa using List.length_pos_iff.2 hfront
  refine ⟨body, (hlast hlength).trans (List.getLast?_concat ..), ?_⟩
  refine (Bool.or_eq_true_iff.1 hbody).imp_right fun hoperand => ?_
  exact ⟨_, _, hbodyTiles.leaves_eq_cons, by simpa using (Bool.and_eq_true_iff.1 hoperand).2⟩

end Erasure

open Erasure

variable {variant : Variant} {file text : String} {tree : SyntaxTree}

/-- After the erasure an expression is read as one. The first token of a statement that is an
expression is no `{`, no `function` and no `class`, and the body of an arrow function is a block or
starts with something other than `{`. If such a statement starts with an `async` that had `function`
behind it on its line, a type in angle brackets is gone from in front of it. -/
theorem SyntaxTree.erase_keeps_expressions
    (hparse : SyntaxTree.parseAs variant file text = .ok tree) (options : Options) :
    ∀ part ∈ (tree.erase options).tree.root.descendants,
      (part.isKind .expressionStatement = true → part.ReadsAsExpression text
        (∃ old ∈ tree.root.descendants, old.label = part.label ∧ old.span = part.span ∧
          old.firstLeaf.isToken .lessThan = true)) ∧
      (part.isKind .arrowFunction = true → part.KeepsBody) := by
  have hregular := SyntaxTree.parseAs_regular hparse
  obtain ⟨rfl, htiles, -⟩ := SyntaxTree.parseAs_tiles hparse
  let s : Setting := .ofTree options tree.source tree.root
  intro part hpart
  rcases exists_reaches s tree.root .none {} part hpart with
    hinserted | ⟨task, w, old, hreaches, hold⟩
  · cases part with
    | inserted piece => simp [isKind, kind?]
    | _ => cases hinserted
  · have hmem := hreaches.visits.mem_descendants
    have hnode := hregular.of_mem hmem
    obtain ⟨i, j, htiles'⟩ := htiles.descendants old hmem
    rcases hold with rfl | ⟨htype, hpart⟩
    · have hbelongs := hreaches.visits.belongs hregular
      have hlabel := label_visit s task w old
      refine ⟨fun hkind => ?_, fun hkind => ?_⟩
      all_goals
        rw [isKind, kind?_of_label_eq hlabel.1] at hkind
        obtain ⟨span, marks, children, rfl⟩ := exists_of_isKind hkind
        have htask := hbelongs.isCommon rfl (by simp) (by simp) (by simp)
      · have hreads := visit_statement (s := s) htask hnode w
        exact ⟨hreads.1, fun first hfirst hasync hfunction =>
          ⟨_, hmem, hlabel.1.symm, hlabel.2.symm, hreads.2 first hfirst hasync hfunction⟩⟩
      · exact visit_arrow (s := s) htask (hbelongs.plain rfl) hnode w
    · rcases exists_of_mem_typeSyntax (s := s) htiles' htype w hpart with
        hleaf | ⟨old, hold, first, hlabel, hleaves, hfirst, hspan, hlast⟩
      · simp [isKind, hleaf]
      · obtain ⟨k, l, htiles'⟩ := htiles'.descendants old hold
        refine ⟨fun hkind => ?_, fun hkind => ?_⟩
        all_goals rw [isKind, kind?_of_label_eq hlabel] at hkind
        · exact source_statement (hnode.of_mem hold) hkind hleaves hfirst hspan
        · exact source_arrow (hnode.of_mem hold) htiles' hkind hlast

/-- An object and a class behind a type are put in parentheses. -/
theorem SyntaxTree.erase_keeps_expressions_class :
    ∃ tree, SyntaxTree.parseAs .standard "a.ts" "f(() => <T>\x7b\x7d); <T>class \x7b\x7d.name" =
      .ok tree ∧ ((tree.erase {}).tree.text = "f(() => (\x7b\x7d)); (class \x7b\x7d.name)" ∧
        ((tree.erase {}).tree.root.descendants.filter fun part =>
          part.isKind .expressionStatement || part.isKind .arrowFunction).map label =
            [.branch .expressionStatement, .branch .arrowFunction, .branch .expressionStatement]) ∧
      ∀ part ∈ (tree.erase {}).tree.root.descendants,
        (part.isKind .expressionStatement = true → part.ReadsAsExpression
          "f(() => <T>\x7b\x7d); <T>class \x7b\x7d.name"
          (∃ old ∈ tree.root.descendants, old.label = part.label ∧ old.span = part.span ∧
            old.firstLeaf.isToken .lessThan = true)) ∧
        (part.isKind .arrowFunction = true → part.KeepsBody) :=
  SyntaxTree.exists_checked_and (by decide +kernel) fun _ hparse _ =>
    SyntaxTree.erase_keeps_expressions hparse {}

/-- An asynchronous function behind a type is left as what is read as a declaration. -/
theorem SyntaxTree.erase_exposes_async :
    ∃ tree, SyntaxTree.parseAs .standard "a.ts" "<any>async function f() \x7b\x7d" = .ok tree ∧
      (∃ part ∈ (tree.erase {}).tree.root.descendants, part.isKind .expressionStatement = true ∧
        (part.leaves.take 2).map token? = [some .asyncKeyword, some .functionKeyword]) ∧
      (tree.erase {}).tree.text = "async function f() \x7b\x7d" :=
  SyntaxTree.exists_checked (by decide +kernel)

end Untype
