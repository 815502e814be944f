-- What has to stand on the line of a word stays there: the operand of
-- `return`, `throw` and `yield`, and what follows `async` in an arrow function.
-- Only the type parameters of an arrow function can leave a line break behind.
import Untype.Proofs.Erasure.Origins
import Untype.Proofs.Trivia.Lines

namespace Untype

open Untype.Node Text

/-! ## Words and what follows them -/

/-- The token that may follow the word of a `return`, `throw` or `yield` on another line. -/
def NodeKind.pause? : NodeKind → Option TokenKind
  | .returnStatement | .throwStatement => some .semicolon
  | .yieldExpression => some .asterisk
  | _ => none

namespace Node

/-- A line break must not follow the word that the node starts with: it is an arrow function with
`async`, or a `return`, `throw` or `yield` with an operand. -/
def isRestricted (node : Node) : Bool :=
  match node.kind?, node.leaves with
  | some .arrowFunction, word :: _ => word.isToken .asyncKeyword
  | some kind, _ :: next :: _ => kind.pause?.any fun pause => !next.isToken pause
  | _, _ => false

/-- What follows the first leaf starts on its line. -/
def StaysTogether (text : String) (node : Node) : Prop :=
  ∃ word next rest, node.leaves = word :: next :: rest ∧
    hasLineBreak (next.leadingTrivia text) = false

/-- What a word is followed by: nothing, a token that may stand on another line, or an operand on
the line of the word. -/
structure Introduces (text : String) (stop : TokenKind) (word : Node) (rest : List Node) :
    Prop where
  isWord : ∃ kind, word.isToken kind ∧ kind ≠ .exportKeyword
  follows : rest.head?.all (isToken stop) ∨ ∃ value others, rest = value :: others ∧
    value.isOperand ∧ word.Unbroken text ∧ others.head?.all (isToken stop)

/-- Types apart, the expression starts with the other one. An operand that a type in front of it
held on its line stands in parentheses then, and does not count. -/
inductive StartsWith (text : String) : Node → Node → Prop where
  | here (node : Node) : StartsWith text node node
  | first {kind : NodeKind} {span : Span} {marks : Marks} {operand node : Node} {rest : List Node} :
    Erasure.startsWithOperand kind → StartsWith text operand node →
    StartsWith text (branch kind span marks (operand :: rest)) node
  | asserted {span : Span} {marks : Marks} {opening type closing operand node : Node} :
    Erasure.isMisread text .afterKeyword operand = false → StartsWith text operand node →
    StartsWith text (branch .typeAssertionExpression span marks [opening, type, closing, operand])
      node

/-- In an arrow function, type parameters follow these words. Without them, and after a gap, the
parameters start on another line. -/
def SplitsAfter (text gap : String) (words : List Node) (node : Node) : Prop :=
  ∃ span marks types parameters rest,
    node = branch .arrowFunction span marks (words ++ types :: parameters :: rest) ∧
    types.isKind .typeParameters ∧
    hasLineBreak (Erasure.join gap (parameters.firstLeaf.leadingTrivia text) true)

/-- The type parameters of an arrow function stand between the word and what follows it then. -/
def Splits (text : String) (node : Node) : Prop :=
  ∃ word next rest, node.children = word :: next :: rest ∧
    (node.SplitsAfter text (next.firstLeaf.leadingTrivia text) [word] ∨
      ∃ arrow, next.StartsWith text arrow ∧
        arrow.SplitsAfter text (next.firstLeaf.leadingTrivia text) [])

end Node

namespace Erasure

open Step

variable {s : Setting} {task task' : Task} {kind : NodeKind} {span : Span} {marks : Marks}
  {node first : Node} {rest : List Node} {gap text : String}
variable {passed children others : List Node} {leaf parameters word value part : Node}
  {pieces pieces' : List Inserted} {scope : Scope} {index i j : Nat} {stop : TokenKind}
  {acts : List Action}

/-- The task has nothing to say about the children but what the kind of the node says. -/
def Task.isBare (task : Task) : Bool := task.isCommon && !task.dropsExport

/-! ## The first leaf of a walk -/

/-- The leaf is one that an expression with members starts with. -/
def startsClass (leaf : Node) : Bool := leaf.isToken .classKeyword || leaf.isToken .atSign

/-- The steps keep this leaf first. Before it they pass over these pieces, which open what they
stand in front of. No list starts there but that of a class. -/
inductive ComesTo : List Node → Node → List Step → Prop where
  | keep (leaf : Node) (back : List Step) : ComesTo [] leaf (.keep leaf :: back)
  | tell {passed : List Node} {leaf : Node} {steps : List Step} (findings : List Finding) :
    ComesTo passed leaf steps → ComesTo passed leaf (.tell findings :: steps)
  | start {passed : List Node} {leaf : Node} {steps : List Step} (atStart : Bool) :
    startsClass leaf → ComesTo passed leaf steps → ComesTo passed leaf (.start atStart :: steps)
  | pass {passed : List Node} {leaf : Node} {steps : List Step} (child : Node) (first : Bool) :
    ComesTo passed leaf steps → ComesTo (child :: passed) leaf (.pass child .opening first :: steps)

/-- What waits behind pieces that open an expression and go. Of several, the first one counts. -/
def Pending.opened (source : String) (pending : Pending) (front : List Node) : Pending :=
  front.foldl (fun pending piece => pending.collapse (piece.firstLeaf.leadingTrivia source) true)
    pending

theorem opened_cons (source : String) (piece : Node) (pieces : List Node) :
    Pending.opened source {} (piece :: pieces) =
      { gap := some (piece.firstLeaf.leadingTrivia source, true) } := by
  induction pieces with
  | nil => rfl
  | cons other pieces ih => exact ih

/-- The first of these leaves has no line break in front of it. -/
def Calm (source : String) (leaves : List Node) : Prop :=
  ∃ next rest, leaves = next :: rest ∧ hasLineBreak (next.leadingTrivia source) = false

namespace ComesTo

variable {passed : List Node} {leaf : Node} {front : List Step}

variable (h : ComesTo passed leaf front)

include h

theorem append (back : List Step) : ComesTo passed leaf (front ++ back) := by
  induction h with
  | keep leaf rest => exact .keep leaf _
  | tell findings _ ih => exact .tell findings ih
  | start atStart hclass _ ih => exact .start atStart hclass ih
  | pass child first _ ih => exact .pass child first ih

theorem enter {policy : Policy} (hunits : policy.holdsUnits → startsClass leaf)
    (child : Node) (lastKept : Option Label) :
    ComesTo passed leaf (enterSteps policy child lastKept ++ front) := by
  unfold enterSteps
  split
  · exact .start _ (hunits ‹_›) h
  · exact h

theorem leaves (source : String) (w : Walk) :
    ∃ w' rest, w'.pending = w.pending.opened source passed ∧
      leavesAlong source w front = (visitLeaf source w' leaf).node :: rest := by
  induction h generalizing w with
  | keep leaf back => exact ⟨w, _, rfl, rfl⟩
  | tell findings _ ih => exact ih ((Step.tell findings).next source w)
  | start atStart _ _ ih => exact ih ((Step.start atStart).next source w)
  | pass child first _ ih => exact ih ((Step.pass child .opening first).next source w)

theorem calm {w : Walk} (source : String) (hleaf : leaf.kind? = none)
    (hpending : w.pending = {})
    (hbreak : hasLineBreak ((Pending.opened source {} passed).apply (leaf.leadingTrivia source)
      (leaf.isToken .endOfFile)) = false) : Calm source (leavesAlong source w front) := by
  obtain ⟨w', rest, hwaits, hleaves⟩ := h.leaves source w
  refine ⟨_, rest, hleaves, ?_⟩
  rwa [leadingTrivia_visitLeaf hleaf, hasLineBreak_keptTrivia, hwaits, hpending]

end ComesTo

/-- The walk over the children of a node, some of which open it and go. -/
theorem comesTo_stepsAll (policy : Policy) (rest : List Node)
    (hunits : policy.holdsUnits → startsClass leaf)
    (h : ComesTo passed leaf (pieceSteps policy pieces ++ steps s task' first)) :
    ∀ (front : List Node) {acts : List Action} (lastKept : Option Label),
    (∀ index < front.length, acts[index]? = some (.remove .opening)) →
    acts[front.length]? = some (.keep task' pieces pieces') →
    ComesTo (front ++ passed) leaf (stepsAll s policy lastKept acts (front ++ first :: rest))
  | [], action :: acts, lastKept, _, haction => by
    obtain rfl : action = .keep task' pieces pieces' := by simpa using haction
    have henter := h.enter hunits first lastKept
    rw [← List.append_assoc] at henter
    rw [List.nil_append, List.nil_append, stepsAll]
    exact ((henter.append _).append _).append _
  | [], [], lastKept, _, haction => by cases haction
  | piece :: front, [], lastKept, hfront, _ => by cases hfront 0 (Nat.succ_pos _)
  | piece :: front, action :: acts, lastKept, hfront, haction => by
    obtain rfl : action = .remove .opening := by simpa using hfront 0 (Nat.succ_pos _)
    have hrest : ∀ index < front.length, acts[index]? = some (.remove .opening) :=
      fun index hindex => by simpa using hfront (index + 1) (Nat.succ_lt_succ hindex)
    rw [List.cons_append, List.cons_append, stepsAll]
    exact .pass piece _ (comesTo_stepsAll policy rest hunits h front lastKept hrest
      (by simpa using haction))

theorem comesTo_branch (front : List Node) (hpolicy : policy kind ≠ .typeSyntax)
    (hfront : ∀ index < front.length,
      (actionsOf s ⟨kind, span, task, front ++ first :: rest⟩)[index]? = some (.remove .opening))
    (hfirst : (actionsOf s ⟨kind, span, task, front ++ first :: rest⟩)[front.length]? =
        some (.keep task' pieces pieces'))
    (hunits : (policy kind).holdsUnits → startsClass leaf)
    (h : ComesTo passed leaf (pieceSteps (policy kind) pieces ++ steps s task' first)) :
    ComesTo (front ++ passed) leaf
      (steps s task (branch kind span marks (front ++ first :: rest))) := by
  rw [steps_branch hpolicy]
  exact .tell _ (comesTo_stepsAll _ rest hunits h front none hfront hfirst)

/-- The walk over the node begins with its first leaf, before which nothing is passed over. -/
structure Begins (s : Setting) (task : Task) (node : Node) : Prop where
  isLeaf : node.firstLeaf.kind? = none
  comesTo : ComesTo [] node.firstLeaf (steps s task node)

theorem begins_of_isLeaf (hleaf : node.isLeaf) (htask : ∀ trivia, task ≠ .trivia trivia) :
    Begins s task node := by
  cases node with
  | branch kind span marks children => cases hleaf
  | leaf token | inserted piece =>
    refine ⟨rfl, ?_⟩
    rw [steps, dress_of_ne_trivia htask]
    · exact .keep _ []
    · simp

theorem Begins.branch (hpolicy : policy kind ≠ .typeSyntax)
    (haction : (actionsOf s ⟨kind, span, task, first :: rest⟩)[0]? = some (.keep task' [] []))
    (hunits : (policy kind).holdsUnits → startsClass first.firstLeaf) (h : Begins s task' first) :
    Begins s task (branch kind span marks (first :: rest)) :=
  ⟨h.isLeaf, comesTo_branch [] hpolicy (by simp) haction hunits h.comesTo⟩

/-! ## Nodes that begin with their first leaf -/

theorem isCommon_of_isBare (h : task.isBare) : task.isCommon :=
  (Bool.and_eq_true_iff.1 h).1

theorem not_dropsExport_of_isBare (h : task.isBare) : task.dropsExport = false := by
  simpa using (Bool.and_eq_true_iff.1 h).2

theorem childTask_ne_trivia (htask : scope.task.isCommon) (index : Nat) (child : Node)
    (trivia : String) : childTask s scope index child ≠ .trivia trivia := by
  intro h
  obtain ⟨plan, hplan⟩ := childTask_trivia h
  rw [hplan] at htask
  cases htask

theorem childTask_isBare (hkind : scope.kind ≠ .classConstructor) (htask : scope.task.isBare)
    (index : Nat) (child : Node) : (childTask s scope index child).isBare := by
  unfold childTask
  dsimp only
  split
  · exact absurd ‹_› hkind
  all_goals
    repeat' split
    all_goals first
      | rfl
      | simp_all [Task.isBare, Task.isCommon, Task.dropsExport]

theorem begins_of_keep (hpolicy : policy kind ≠ .typeSyntax) (hkind : kind ≠ .variableDeclaration)
    (htask : task.isBare) (hpart : first.isTypePart = false)
    (hcomma : (policy kind).holdsList → first.isToken .comma = false)
    (hverdict : (childVerdict s ⟨kind, span, task, first :: rest⟩ 0 first).action =
      .keep task' [] [])
    (hunits : (policy kind).holdsUnits → startsClass first.firstLeaf)
    (hfirst : Begins s task' first) :
    Begins s task (branch kind span marks (first :: rest)) := by
  refine .branch hpolicy ?_ hunits hfirst
  rw [action_eq first rfl hcomma, verdict_of_isCommon hkind (isCommon_of_isBare htask)
    (by simp [not_dropsExport_of_isBare htask]) hpart, hverdict]

theorem action_plain (child : Node)
    (hpolicy : policy scope.kind = .plain ∨ policy scope.kind = .arrow)
    (hkind : scope.kind ≠ .variableDeclaration) (htask : scope.task.isCommon)
    (hexport : (child.isToken .exportKeyword && scope.task.dropsExport) = false)
    (hchild : scope.children[index]? = some child) (hpart : child.isTypePart = false) :
    (actionsOf s scope)[index]? =
      some (.keep (childTask s scope index child) [] []) := by
  have hlist : (policy scope.kind).holdsList = false := by
    rcases hpolicy with h | h <;> rw [h] <;> rfl
  rw [action_eq child hchild (by simp [hlist]), verdict_of_isCommon hkind htask hexport hpart]
  unfold childVerdict
  rcases hpolicy with h | h <;> rw [h]

theorem begins_of_plain (hpolicy : policy kind = .plain ∨ policy kind = .arrow)
    (hkind : kind ≠ .variableDeclaration) (htask : task.isBare)
    (hpart : first.isTypePart = false)
    (hfirst : Begins s (childTask s ⟨kind, span, task, first :: rest⟩ 0 first) first) :
    Begins s task (branch kind span marks (first :: rest)) := by
  have hne : policy kind ≠ .typeSyntax := by rcases hpolicy with h | h <;> rw [h] <;> exact nofun
  refine .branch hne ?_ (by rcases hpolicy with h | h <;> rw [h] <;> exact nofun) hfirst
  exact action_plain first hpolicy hkind (isCommon_of_isBare htask)
    (by simp [not_dropsExport_of_isBare htask]) rfl hpart

theorem begins_of_leaf (hpolicy : policy kind ≠ .typeSyntax) (hkind : kind ≠ .variableDeclaration)
    (htask : task.isBare) (hleaf : first.isLeaf)
    (hcomma : (policy kind).holdsList → first.isToken .comma = false)
    (hverdict : (childVerdict s ⟨kind, span, task, first :: rest⟩ 0 first).action =
      .keep (childTask s ⟨kind, span, task, first :: rest⟩ 0 first) [] [])
    (hunits : (policy kind).holdsUnits = false) :
    Begins s task (branch kind span marks (first :: rest)) := by
  refine begins_of_keep hpolicy hkind htask (isTypePart_of_isLeaf hleaf) hcomma hverdict
    (by simp [hunits]) ?_
  exact begins_of_isLeaf hleaf (childTask_ne_trivia (isCommon_of_isBare htask) 0 first)

theorem begins_of_plain_leaf (hpolicy : policy kind = .plain ∨ policy kind = .arrow)
    (hkind : kind ≠ .variableDeclaration) (htask : task.isBare)
    (hleaf : first.isLeaf) : Begins s task (branch kind span marks (first :: rest)) := by
  refine begins_of_plain hpolicy hkind htask (isTypePart_of_isLeaf hleaf) ?_
  exact begins_of_isLeaf hleaf (childTask_ne_trivia (isCommon_of_isBare htask) 0 first)

theorem exists_head {p : Node → Bool} (h : children.head?.any p) :
    ∃ first rest, children = first :: rest ∧ p first := by
  cases children with
  | nil => cases h
  | cons first rest => exact ⟨first, rest, rfl, h⟩

/-- A decorator and an opening tag start with a sign. -/
theorem begins_of_head (htask : task.isBare) (hregular : node.Regular text)
    (hnode : node.isKind .decorator ∨ node.isKind .jsxOpeningElement ∨
      node.isKind .jsxOpeningFragment) : Begins s task node := by
  rcases hnode with h | h | h
  all_goals
    obtain ⟨span, marks, children, rfl⟩ := exists_of_isKind h
    obtain ⟨first, rest, rfl, hfirst⟩ := exists_head (hregular.branch.1 nofun)
    refine begins_of_plain_leaf (.inl rfl) nofun htask ?_
  · exact isLeaf_of_isToken hfirst
  · exact hfirst
  · exact hfirst

theorem firstLeaf_of_isLeaf (h : node.isLeaf) : node.firstLeaf = node := by
  cases node with
  | branch kind span marks children => cases h
  | _ => rfl

/-- The parameters of an arrow function start with a parenthesis, or are a name. -/
theorem begins_of_parameters (htask : task.isBare) (hregular : parameters.Regular text)
    (h : parameters.IsParameters) : Begins s task parameters := by
  rcases h with h | ⟨name, rfl, hname⟩
  · obtain ⟨span, marks, children, rfl⟩ := exists_of_isKind h
    obtain ⟨first, rest, rfl, hfirst⟩ := exists_head (hregular.branch.1 (by decide))
    have hleaf := isLeaf_of_isToken hfirst
    refine begins_of_leaf (by decide) (by decide) htask hleaf
      (fun _ => isToken_of_ne hfirst (by decide)) ?_ rfl
    have hkind : first.isKind .parameter = false := by
      cases first with
      | branch => cases hleaf
      | _ => rfl
    simp [childVerdict, policy, hkind]
  · refine begins_of_leaf (by decide) (by decide) htask (isLeaf_of_isToken hname)
      (by simp [policy, Policy.holdsList]) ?_ rfl
    have htoken : name.token? = some .identifier := beq_iff_eq.1 hname
    simp [childVerdict, policy, htoken, TokenKind.isTypeModifier]

theorem firstLeaf_parameters (hregular : parameters.Regular text)
    (h : parameters.IsParameters) :
    parameters.firstLeaf.kind? = none ∧ ∀ kind, kind ≠ .openParen → kind ≠ .identifier →
      parameters.firstLeaf.isToken kind = false := by
  obtain ⟨kind, hkind, hcases⟩ : ∃ kind, parameters.firstLeaf.isToken kind ∧
      (kind = .openParen ∨ kind = .identifier) := by
    rcases h with h | ⟨name, rfl, hname⟩
    · obtain ⟨span, marks, children, rfl⟩ := exists_of_isKind h
      obtain ⟨first, rest, rfl, hfirst⟩ := exists_head (hregular.branch.1 nofun)
      rw [firstLeaf, firstLeafOf, firstLeaf_of_isLeaf (isLeaf_of_isToken hfirst)]
      exact ⟨_, hfirst, .inl rfl⟩
    · rw [group, firstLeaf, firstLeafOf, firstLeaf_of_isLeaf (isLeaf_of_isToken hname)]
      exact ⟨_, hname, .inr rfl⟩
  refine ⟨?_, fun other hparen hname => isToken_of_ne hkind ?_⟩
  · cases hleaf : parameters.firstLeaf with
    | branch => rw [hleaf] at hkind; cases hkind
    | _ => rfl
  · rcases hcases with rfl | rfl
    · exact hparen.symm
    · exact hname.symm

/-- A class starts with its word or with a decorator. -/
theorem begins_of_class (htask : task.isBare)
    (hregular : (branch .classExpression span marks children).Regular text) :
    Begins s task (branch .classExpression span marks children) := by
  obtain ⟨hshape, -, hchildren⟩ := hregular.branch
  obtain ⟨⟨front, word, rest, rfl, hword, hfront⟩, -⟩ := hshape (by decide)
  cases front with
  | nil =>
    have hleaf := isLeaf_of_isToken hword
    refine begins_of_keep (by decide) (by decide) htask (isTypePart_of_isLeaf hleaf)
      (fun h => by cases h) ?_
      (fun _ => by rw [firstLeaf_of_isLeaf hleaf, startsClass, hword, Bool.true_or])
      (begins_of_isLeaf hleaf (by simp : ∀ trivia, Task.none ≠ .trivia trivia))
    have hlabel : word.label = .token .classKeyword := by
      cases word <;> simp_all [isToken, token?, label]
    simp [childVerdict, policy, classAction, hlabel, TokenKind.isTypeModifier, Action.stay]
  | cons first front =>
    have hfirst := hfront first List.mem_cons_self
    have hregular := hchildren first (by simp)
    have hbegins : Begins s .none first := begins_of_head rfl hregular (.inl hfirst)
    obtain ⟨span', marks', children', rfl⟩ := exists_of_isKind hfirst
    obtain ⟨sign, rest', rfl, hsign⟩ := exists_head (hregular.branch.1 (by decide))
    refine begins_of_keep (by decide) (by decide) htask rfl (fun _ => rfl) rfl (fun _ => ?_) hbegins
    rw [firstLeaf, firstLeafOf, firstLeaf_of_isLeaf (isLeaf_of_isToken hsign), startsClass, hsign,
      Bool.or_true]

/-- An expression that starts with a word, a sign, a class or a tag. -/
theorem begins_of_isOperand (htask : task.isBare)
    (hregular : (branch kind span marks children).Regular text) (hkind : kind.isOperand)
    (hstart : startsWithOperand kind = false) (hassertion : kind ≠ .typeAssertionExpression)
    (harrow : kind ≠ .arrowFunction) : Begins s task (branch kind span marks children) := by
  have hleafed : ∀ {kind : NodeKind}, policy kind = .plain → kind ≠ .variableDeclaration →
      children.head?.any isLeaf → Begins s task (branch kind span marks children) := by
    intro kind hpolicy hkind hhead
    obtain ⟨first, rest, rfl, hfirst⟩ := exists_head hhead
    exact begins_of_plain_leaf (.inl hpolicy) hkind htask hfirst
  have hopened : ∀ {kind : NodeKind}, policy kind = .plain → kind ≠ .variableDeclaration →
      kind ≠ .classConstructor → (∀ child ∈ children, child.Regular text) →
      children.head?.any (fun opening => opening.isKind .jsxOpeningElement ||
        opening.isKind .jsxOpeningFragment) →
      Begins s task (branch kind span marks children) := by
    intro kind hpolicy hkind hkind' hchildren hhead
    obtain ⟨first, rest, rfl, hfirst⟩ := exists_head hhead
    have htagged := Bool.or_eq_true_iff.1 hfirst
    have hpart : first.isTypePart = false := by
      rcases htagged with h | h
      all_goals
        obtain ⟨span, marks, children, rfl⟩ := exists_of_isKind h
        rfl
    refine begins_of_plain (.inl hpolicy) hkind htask hpart ?_
    exact begins_of_head (childTask_isBare hkind' htask 0 first)
      (hchildren first List.mem_cons_self) (.inr htagged)
  have hother : (kind.isOperand && !startsWithOperand kind) := by rw [hkind, hstart]; rfl
  cases kind with
  | classExpression => exact begins_of_class htask hregular
  | jsxElement | jsxFragment =>
    exact hopened rfl nofun nofun hregular.branch.2.2 (hregular.branch.1 nofun)
  | yieldExpression =>
    obtain ⟨word, star, operand, rfl, hword, -⟩ := hregular.branch.1 nofun
    exact begins_of_plain_leaf (.inl rfl) nofun htask (isLeaf_of_isToken hword)
  | typeAssertionExpression => exact absurd rfl hassertion
  | arrowFunction => exact absurd rfl harrow
  | _ => first
    | exact hleafed rfl nofun (hregular.branch.1 nofun)
    | cases hother

/-! ## Operands after a word -/

theorem policy_of_startsWithOperand (h : startsWithOperand kind) :
    policy kind = .plain ∨ policy kind = .cast := by
  cases kind <;> first | exact .inl rfl | exact .inr rfl | cases h

theorem action_first (s : Setting) (span : Span) (place : OperandPlace) (rest : List Node)
    (hstart : startsWithOperand kind) (hpart : first.isTypePart = false) :
    (actionsOf s ⟨kind, span, .operand place, first :: rest⟩)[0]? =
        some (.keep (.operand place) [] []) := by
  have hlist : (policy kind).holdsList = false := by
    rcases policy_of_startsWithOperand hstart with h | h <;> rw [h] <;> rfl
  rw [action_eq first rfl (by simp [hlist]), verdict_of_isCommon (by rintro rfl; cases hstart)
    rfl (by simp [Task.dropsExport]) hpart]
  cases kind <;> first | rfl | cases hstart

/-- Of a type in angle brackets before an operand only the operand is left. -/
theorem action_assertion (s : Setting) (span : Span) {opening type closing operand : Node}
    (hscope : scope = ⟨.typeAssertionExpression, span, task, [opening, type, closing, operand]⟩)
    (htask : task.isBare) (hopening : opening.isLeaf) (htype : type.isTypePart = false)
    (hclosing : closing.isLeaf) (hoperand : operand.isOperand) :
    (∀ index < 3, (actionsOf s scope)[index]? = some (.remove .opening)) ∧
      (actionsOf s scope)[3]? = some (operandAction s.source task operand) := by
  have haction : ∀ {index : Nat} {child : Node},
      scope.children[index]? = some child → child.isTypePart = false →
      (actionsOf s scope)[index]? = some (childVerdict s scope index child).action := by
    subst hscope
    intro index child hchild hpart
    have hkind : NodeKind.typeAssertionExpression ≠ .variableDeclaration := nofun
    rw [action_eq child hchild nofun, verdict_of_isCommon hkind (isCommon_of_isBare htask)
      (by simp [not_dropsExport_of_isBare htask]) hpart]
  subst hscope
  refine ⟨fun index hindex => ?_, ?_⟩
  · match index, hindex with
    | 0, _ => exact haction rfl (isTypePart_of_isLeaf hopening)
    | 1, _ => exact haction rfl htype
    | 2, _ => exact haction rfl (isTypePart_of_isLeaf hclosing)
  · exact haction rfl (not_isTypePart_of_isOperand hoperand)

theorem action_types {types : Node} (hkind : scope.kind = .arrowFunction)
    (hchild : scope.children[index]? = some types) (htypes : types.isKind .typeParameters) :
    (actionsOf s scope)[index]? = some (.remove .opening) := by
  obtain ⟨span, marks, children, rfl⟩ := exists_of_isKind htypes
  rw [action_eq _ hchild (by simp [hkind, policy, Policy.holdsList])]
  unfold verdict
  rw [constantOwner?_eq_none index (.inl (by simp [hkind])), hkind]
  rfl

theorem isTypePart_of_parameters (h : parameters.IsParameters) :
    parameters.isTypePart = false := by
  rcases h with h | ⟨name, rfl, -⟩
  · exact isTypePart_of_isKind h
  · rfl

theorem childTask_arrow_isBare (s : Setting) (span : Span) (task : Task) (children : List Node)
    (index : Nat) (child : Node) :
    (childTask s ⟨.arrowFunction, span, task, children⟩ index child).isBare := by
  simp only [childTask]
  split <;> rfl

/-- In an arrow function, behind its words, the parameters come first, without those of types. -/
theorem comesTo_parameters {word types : List Node} (span : Span) (rest : List Node)
    (lastKept : Option Label) (htask : task.isCommon) (hregular : parameters.Regular text)
    (harrow : HasArrowShape text word types parameters) :
    ComesTo types parameters.firstLeaf (stepsAll s .arrow lastKept
      ((actionsOf s ⟨.arrowFunction, span, task, word ++ types ++ parameters :: rest⟩).drop
          word.length) (types ++ parameters :: rest)) := by
  have hkind : NodeKind.arrowFunction ≠ .variableDeclaration := nofun
  have hpart := isTypePart_of_parameters harrow.parameters
  have hexport : (parameters.isToken .exportKeyword && task.dropsExport) = false := by
    rcases harrow.parameters with h | ⟨name, rfl, -⟩
    · obtain ⟨span, marks, children, rfl⟩ := exists_of_isKind h
      rfl
    · rfl
  generalize hacts : actionsOf s ⟨.arrowFunction, span, task, word ++ types ++ parameters :: rest⟩ =
    acts
  have hgone : ∀ index < types.length, (acts.drop word.length)[index]? =
      some (.remove .opening) := by
    intro index hindex
    rw [List.getElem?_drop, ← hacts]
    rcases harrow.types with rfl | ⟨list, rfl, hlist⟩
    · cases hindex
    · obtain rfl : index = 0 := by simpa using hindex
      exact action_types rfl (by simp) hlist
  obtain ⟨task', hbare, hkept⟩ : ∃ task' : Task, task'.isBare ∧
      (acts.drop word.length)[types.length]? = some (.keep task' [] []) := by
    rw [List.getElem?_drop, ← hacts]
    exact ⟨_, childTask_arrow_isBare .., action_plain parameters (.inr rfl) hkind htask hexport
      (by simp) hpart⟩
  have hbegins : Begins s task' parameters := begins_of_parameters hbare hregular harrow.parameters
  have hcomes := comesTo_stepsAll .arrow rest nofun hbegins.comesTo types lastKept hgone hkept
  rwa [List.append_nil] at hcomes

/-- How an operand starts when its types are gone: with this leaf, behind these pieces that went. -/
inductive Heads (text : String) (place : OperandPlace) : Node → List Node → Node → Prop where
  | here {node : Node} : node.firstLeaf.kind? = none →
    node.isKind .typeAssertionExpression = false → Heads text place node [] node.firstLeaf
  | first {kind : NodeKind} {span : Span} {marks : Marks} {operand leaf : Node}
    {rest passed : List Node} : startsWithOperand kind → Heads text place operand passed leaf →
    Heads text place (branch kind span marks (operand :: rest)) passed leaf
  | wrapped {span : Span} {marks : Marks} {opening type closing operand : Node} {piece : Inserted} :
    piece.trivia = none →
    Heads text place (branch .typeAssertionExpression span marks [opening, type, closing, operand])
      [opening, type, closing] (inserted piece)
  | asserted {span : Span} {marks : Marks} {opening type closing operand leaf : Node}
    {passed : List Node} : isMisread text place operand = false →
    Heads text place operand passed leaf →
    Heads text place (branch .typeAssertionExpression span marks [opening, type, closing, operand])
      (opening :: type :: closing :: passed) leaf
  | arrow {span : Span} {marks : Marks} {types parameters : Node} {rest : List Node} :
    types.isKind .typeParameters → parameters.firstLeaf.kind? = none →
    (∀ kind, kind ≠ .openParen → kind ≠ .identifier → parameters.firstLeaf.isToken kind = false) →
    Heads text place (branch .arrowFunction span marks (types :: parameters :: rest)) [types]
      parameters.firstLeaf

namespace Heads

variable {place : OperandPlace} {leaf : Node} {passed : List Node}

theorem kind?_eq_none (h : Heads text place node passed leaf) : leaf.kind? = none := by
  induction h with
  | here hleaf | arrow _ hleaf => exact hleaf
  | wrapped => rfl
  | first _ _ ih | asserted _ _ ih => exact ih

theorem head? (h : Heads text place node passed leaf) :
    (passed.map firstLeaf ++ [leaf]).head? = some node.firstLeaf := by
  induction h with
  | here | wrapped | asserted | arrow => rfl
  | first _ _ ih => exact ih

theorem not_isAssertion (h : Heads text place node [] leaf) :
    node.isKind .typeAssertionExpression = false := by
  cases h with
  | here _ hkind => exact hkind
  | @first kind _ _ _ _ _ _ hstart => cases kind <;> first | rfl | cases hstart

/-- Where a piece went, the leaf is on the line of what stands in front of it, or the type
parameters of an arrow function were that piece. -/
theorem breaks (h : Heads text .afterKeyword node passed leaf) (hpassed : passed ≠ []) :
    hasLineBreak (leaf.leadingTrivia text) = false ∨ leaf.isToken .endOfFile = false ∧
      ∃ arrow, node.StartsWith text arrow ∧ ∃ span marks types parameters rest,
        arrow = branch .arrowFunction span marks (types :: parameters :: rest) ∧
        types.isKind .typeParameters ∧ leaf = parameters.firstLeaf := by
  induction h with
  | here => exact absurd rfl hpassed
  | first hstart _ ih =>
    refine (ih hpassed).imp_right (And.imp_right ?_)
    exact Exists.imp fun arrow => And.imp_left (.first hstart)
  | wrapped htrivia =>
    rw [leadingTrivia, htrivia]
    exact .inl rfl
  | @asserted _ _ _ _ _ operand leaf passed hmisread h ih =>
    by_cases hnone : passed = []
    · subst hnone
      obtain rfl : leaf = operand.firstLeaf := by simpa using h.head?
      exact .inl (by simpa [isMisread, h.not_isAssertion] using hmisread)
    · refine (ih hnone).imp_right (And.imp_right ?_)
      exact Exists.imp fun arrow => And.imp_left (.asserted hmisread)
  | arrow htypes _ hother =>
    exact .inr ⟨hother _ (by simp) (by simp), _, .here _, _, _, _, _, _, rfl, htypes, rfl⟩

end Heads

theorem comesTo_arrow (place : OperandPlace) (htask : task.isBare)
    (hregular : (branch .arrowFunction span marks children).Regular text) :
    ∃ passed leaf, Heads s.source place (branch .arrowFunction span marks children) passed leaf ∧
      ComesTo passed leaf (steps s task (branch .arrowFunction span marks children)) := by
  obtain ⟨hshape, -, hchildren⟩ := hregular.branch
  obtain ⟨⟨word, types, parameters, rest, rfl, harrow⟩, -⟩ := hshape nofun
  rcases harrow.word with rfl | ⟨async, rfl, hasync, -⟩
  · have hparameters := hchildren parameters (by simp)
    obtain ⟨hleaf, hother⟩ := firstLeaf_parameters hparameters harrow.parameters
    refine ⟨types, parameters.firstLeaf, ?_, .tell _ (comesTo_parameters span rest none
      (isCommon_of_isBare htask) hparameters harrow)⟩
    rcases harrow.types with rfl | ⟨list, rfl, hlist⟩
    · exact .here hleaf rfl
    · exact .arrow hlist hleaf hother
  · have hbegins : Begins s task (branch .arrowFunction span marks
        ([async] ++ types ++ parameters :: rest)) :=
      begins_of_plain_leaf (.inr rfl) nofun htask (isLeaf_of_isToken hasync)
    exact ⟨_, _, .here hbegins.isLeaf rfl, hbegins.comesTo⟩

/-- The walk over an operand starts so. -/
theorem comesTo_operand (place : OperandPlace) (node : Node) (hregular : node.Regular text)
    (hoperand : node.isOperand) : ∃ passed leaf, Heads s.source place node passed leaf ∧
      ComesTo passed leaf (steps s (.operand place) node) := by
  induction node using Node.induct with
  | step node ih =>
    cases node with
    | leaf token | inserted piece =>
      exact ⟨_, _, .here rfl rfl, (begins_of_isLeaf rfl (by simp)).comesTo⟩
    | branch kind span marks children =>
      obtain ⟨hshape, -, hchildren⟩ := hregular.branch
      have hkind : kind.isOperand := hoperand
      by_cases hassertion : kind = .typeAssertionExpression
      · obtain rfl := hassertion
        obtain ⟨opening, type, closing, operand, rfl, hopening, htype, hclosing, hoperand⟩ :=
          hshape (by decide)
        obtain ⟨hfront, haction⟩ := action_assertion s span rfl
          (rfl : (Task.operand place).isBare) (isLeaf_of_isToken hopening) htype hclosing hoperand
        have hpolicy : policy .typeAssertionExpression ≠ .typeSyntax := by decide
        have hmem : operand ∈ [opening, type, closing, operand] := by simp
        unfold operandAction at haction
        cases hmisread : isMisread s.source place operand with
        | true =>
          simp only [hmisread, if_true] at haction
          exact ⟨_, _, .wrapped rfl,
            comesTo_branch [opening, type, closing] hpolicy hfront haction nofun (.keep _ _)⟩
        | false =>
          simp only [hmisread, Bool.false_eq_true, if_false] at haction
          obtain ⟨passed, leaf, hheads, hcomes⟩ := ih operand hmem (hchildren operand hmem) hoperand
          exact ⟨_, _, .asserted hmisread hheads,
            comesTo_branch [opening, type, closing] hpolicy hfront haction nofun hcomes⟩
      by_cases harrow : kind = .arrowFunction
      · obtain rfl := harrow
        exact comesTo_arrow place rfl hregular
      cases hstart : startsWithOperand kind with
      | false =>
        have hbegins : Begins s (.operand place) (branch kind span marks children) :=
          begins_of_isOperand rfl hregular hkind hstart hassertion harrow
        exact ⟨_, _, .here hbegins.isLeaf (by simpa [isKind, kind?] using hassertion),
          hbegins.comesTo⟩
      | true =>
        obtain ⟨operand, rest, rfl, hoperand'⟩ := exists_first_operand hstart
          (hshape (by rintro rfl; cases hstart))
        have hpolicy : policy kind ≠ .typeSyntax ∧ (policy kind).holdsUnits = false := by
          rcases policy_of_startsWithOperand hstart with h | h <;> rw [h] <;> decide
        obtain ⟨passed, leaf, hheads, hcomes⟩ :=
          ih operand List.mem_cons_self (hchildren operand List.mem_cons_self) hoperand'
        exact ⟨_, _, .first hstart hheads, comesTo_branch [] hpolicy.1 (by simp)
          (action_first s span place rest hstart (not_isTypePart_of_isOperand hoperand'))
          (by simp [hpolicy.2]) hcomes⟩

/-! ## What follows a word -/

/-- The walk over a node that starts with a word goes on behind it with nothing that waits. -/
theorem steps_word (s : Setting) (span : Span) (marks : Marks) (rest : List Node)
    (hpolicy : policy kind = .plain ∨ policy kind = .arrow) (hkind : kind ≠ .variableDeclaration)
    (htask : task.isCommon) (hleaf : word.isLeaf)
    (hexport : word.isToken .exportKeyword = false) (w : Walk) :
    ∃ word' w', w'.pending = {} ∧
      leavesAlong s.source w (steps s task (branch kind span marks (word :: rest))) =
        word' :: leavesAlong s.source w' (stepsAll s (policy kind) (some word.label)
          (actionsOf s ⟨kind, span, task, word :: rest⟩).tail rest) := by
  have hne : policy kind ≠ .typeSyntax := by rcases hpolicy with h | h <;> rw [h] <;> decide
  have hunits : (policy kind).holdsUnits = false := by rcases hpolicy with h | h <;> rw [h] <;> rfl
  have haction : (actionsOf s ⟨kind, span, task, word :: rest⟩)[0]? =
        some (.keep (childTask s ⟨kind, span, task, word :: rest⟩ 0 word) [] []) :=
    action_plain word hpolicy hkind htask (by simp [hexport]) rfl (isTypePart_of_isLeaf hleaf)
  have hsteps : steps s (childTask s ⟨kind, span, task, word :: rest⟩ 0 word) word =
      [.keep word] := by
    have htrivia : ∀ trivia, childTask s ⟨kind, span, task, word :: rest⟩ 0 word ≠ .trivia trivia :=
      childTask_ne_trivia htask 0 word
    cases word with
    | branch kind span marks children => cases hleaf
    | leaf token | inserted piece => rw [steps, dress_of_ne_trivia htrivia]; simp
  rw [steps_branch hne]
  generalize actionsOf s ⟨kind, span, task, word :: rest⟩ = acts at haction ⊢
  cases acts with
  | nil => cases haction
  | cons action acts =>
    obtain rfl : action = _ := by simpa using haction
    rw [stepsAll]
    simp only [List.headD_cons, enterSteps, leaveSteps, hunits, pieceSteps, hsteps,
      leavesAlong_cons, Step.leaves, List.nil_append, List.append_nil]
    exact ⟨_, _, rfl, rfl⟩

/-- What is in front of a token that ends a statement, or of nothing. -/
theorem stop_follows (lastKept : Option Label) (w : Walk)
    (hothers : others.head?.all (isToken stop))
    (hacts : ∀ first rest, others = first :: rest → ∃ task', acts[0]? = some (.keep task' [] []) ∧
      ∀ trivia, task' ≠ .trivia trivia) :
    (leavesAlong s.source w (stepsAll s .plain lastKept acts others)).head?.all (isToken stop) =
      true := by
  cases others with
  | nil => rw [stepsAll]; rfl
  | cons first rest =>
    obtain ⟨task', haction, htrivia⟩ := hacts first rest rfl
    have hfirst : first.isToken stop := hothers
    have hleaf := isLeaf_of_isToken hfirst
    have hbegins : Begins s task' first := begins_of_isLeaf hleaf htrivia
    obtain ⟨w', back, -, hleaves⟩ :=
      (comesTo_stepsAll .plain rest nofun hbegins.comesTo [] lastKept (by simp) haction).leaves
        s.source w
    rw [List.nil_append] at hleaves
    rw [hleaves, firstLeaf_of_isLeaf hleaf]
    have hlabel : (visitLeaf s.source w' first).node.label = first.label := label_visitLeaf
    simpa [isToken_of_label_eq hlabel] using hfirst

theorem action_export {child : Node} (hpolicy : (policy scope.kind).holdsList = false)
    (hkind : scope.kind ≠ .variableDeclaration)
    (hexport : (child.isToken .exportKeyword && scope.task.dropsExport))
    (hchild : scope.children[index]? = some child) :
    (actionsOf s scope)[index]? = some (.remove .modifier) := by
  rw [action_eq child hchild (by simp [hpolicy])]
  unfold verdict
  rw [constantOwner?_eq_none index (.inl hkind)]
  dsimp only
  rw [if_pos hexport]

theorem childTask_value {word' : TokenKind} (hkind : kind.pause? = some stop)
    (hword : word.isToken word') (hvalue : value.token? = none) :
    childTask s ⟨kind, span, task, word :: value :: rest⟩ 1 value = .operand .afterKeyword := by
  have htoken : word.token? = some word' := beq_iff_eq.1 hword
  have hindex : (word :: value :: rest).findIdx? (fun node => node.token?.isNone) = some 1 := by
    simp [List.findIdx?_cons, htoken, hvalue]
  cases kind <;> first | (cases hkind; done) | simp [childTask, hindex]

theorem gap_of_unbroken (h : word.Unbroken text)
    (htiles : (branch kind span marks (word :: value :: rest)).Tiles text i j) :
    hasLineBreak (value.firstLeaf.leadingTrivia text) = false := by
  have hchildren := htiles.tileAll
  obtain ⟨k, hword, hrest⟩ := tileAll_cons.1 hchildren
  obtain ⟨l, hvalue, -⟩ := tileAll_cons.1 hrest
  exact h.not_hasLineBreak hvalue hword.lies.2.1

/-- An operand behind a word starts without a line break, unless the type parameters of an arrow
function leave one. -/
theorem value_follows {w : Walk} (lastKept : Option Label)
    (haction : acts[0]? = some (.keep task [] []))
    (hleaf : value.isLeaf → ∀ trivia, task ≠ .trivia trivia)
    (hbranch : value.isLeaf = false → task = .operand .afterKeyword) (hpending : w.pending = {})
    (hregular : value.Regular s.source) (hvalue : value.isOperand)
    (hgap : hasLineBreak (value.firstLeaf.leadingTrivia s.source) = false) :
    Calm s.source (leavesAlong s.source w (stepsAll s .plain lastKept acts (value :: rest))) ∨
      ∃ arrow, value.StartsWith s.source arrow ∧
        arrow.SplitsAfter s.source (value.firstLeaf.leadingTrivia s.source) [] := by
  obtain ⟨passed, leaf, hheads, hcomes⟩ : ∃ passed leaf,
      Heads s.source .afterKeyword value passed leaf ∧
        ComesTo passed leaf (steps s task value) := by
    cases h : value.isLeaf with
    | true =>
      have hbegins : Begins s task value := begins_of_isLeaf h (hleaf h)
      refine ⟨_, _, .here hbegins.isLeaf ?_, hbegins.comesTo⟩
      cases value <;> first | rfl | cases h
    | false =>
      obtain rfl := hbranch h
      exact comesTo_operand .afterKeyword value hregular hvalue
  have hhead := hheads.head?
  have hcalm := (comesTo_stepsAll .plain rest nofun hcomes [] lastKept (by simp) haction).calm
    s.source hheads.kind?_eq_none hpending
  cases passed with
  | nil =>
    obtain rfl : leaf = value.firstLeaf := by simpa using hhead
    exact .inl (hcalm hgap)
  | cons piece pieces =>
    have hfirst : piece.firstLeaf = value.firstLeaf := by simpa using hhead
    rw [List.nil_append, opened_cons, hfirst] at hcalm
    rcases hheads.breaks nofun with hown | ⟨hend, arrow, hstarts, span, marks, types, parameters,
      rest, rfl, htypes, rfl⟩
    · refine .inl (hcalm (hasLineBreak_apply rfl ?_ hown _))
      rintro gap first ⟨rfl, -⟩
      exact hgap
    · cases hbreak : hasLineBreak (join (value.firstLeaf.leadingTrivia s.source)
          (parameters.firstLeaf.leadingTrivia s.source) true) with
      | true => exact .inr ⟨_, hstarts, span, marks, types, parameters, rest, rfl, htypes, hbreak⟩
      | false =>
        rw [hend] at hcalm
        exact .inl (hcalm hbreak)

/-- The leaves of a node that starts with such a word. -/
theorem introduction_leaves (hkind : kind.pause? = some stop) (htask : task.isCommon)
    (hregular : (branch kind span marks (word :: rest)).Regular s.source)
    (htiles : (branch kind span marks (word :: rest)).Tiles s.source i j)
    (hintroduces : Introduces s.source stop word rest) (w : Walk) :
    ∃ word' back, leavesAlong s.source w (steps s task (branch kind span marks (word :: rest))) =
        word' :: back ∧
      (back.head?.all (isToken stop) ∨ Calm s.source back ∨
        (branch kind span marks (word :: rest)).Splits s.source) := by
  have hplain : policy kind = .plain := by cases kind <;> first | rfl | cases hkind
  have hother : kind ≠ .variableDeclaration := by rintro rfl; cases hkind
  have hstop : stop ≠ .exportKeyword := by rintro rfl; cases kind <;> cases hkind
  obtain ⟨⟨word', hword, hexport⟩, hfollows⟩ := hintroduces
  obtain ⟨new, w', hpending, hleaves⟩ := steps_word s span marks rest (.inl hplain) hother htask
    (isLeaf_of_isToken hword) (isToken_of_ne hword hexport) w
  rw [hplain] at hleaves
  refine ⟨new, _, hleaves, ?_⟩
  have hkept : ∀ {index : Nat} {child : Node}, rest[index]? = some child →
      child.isTypePart = false → (child.isToken .exportKeyword && task.dropsExport) = false →
      (actionsOf s ⟨kind, span, task, word :: rest⟩).tail[index]? =
          some (.keep (childTask s ⟨kind, span, task, word :: rest⟩ (index + 1) child) [] []) := by
    intro index child hchild hpart hexport
    rw [List.getElem?_tail]
    exact action_plain child (.inl hplain) hother htask hexport (by simpa using hchild) hpart
  -- A token that ends the node stays.
  have hends : ∀ (index : Nat) {child : Node}, rest[index]? = some child →
      child.isToken stop → ∃ task', (actionsOf s ⟨kind, span, task, word :: rest⟩).tail[index]? =
          some (.keep task' [] []) ∧ ∀ trivia, task' ≠ .trivia trivia := by
    intro index child hchild hchild'
    exact ⟨_, hkept hchild (isTypePart_of_isLeaf (isLeaf_of_isToken hchild'))
      (by simp [isToken_of_ne hchild' hstop]), childTask_ne_trivia htask (index + 1) child⟩
  rcases hfollows with hhead | ⟨value, others, rfl, hvalue, hunbroken, hothers⟩
  · refine .inl (stop_follows _ w' hhead fun first others hrest => ?_)
    subst hrest
    exact hends 0 rfl hhead
  · cases hgone : value.isToken .exportKeyword && task.dropsExport with
    | true =>
      have hremoved : (actionsOf s ⟨kind, span, task, word :: value :: others⟩).tail[0]? =
            some (.remove .modifier) := by
        rw [List.getElem?_tail]
        exact action_export (by simp [hplain, Policy.holdsList]) hother hgone rfl
      generalize (actionsOf s ⟨kind, span, task, word :: value :: others⟩).tail =
        acts at hremoved hends ⊢
      cases acts with
      | nil => cases hremoved
      | cons action acts =>
        obtain rfl : action = .remove .modifier := by simpa using hremoved
        rw [stepsAll]
        refine .inl (stop_follows _ _ hothers fun first rest hrest => ?_)
        subst hrest
        exact hends 1 rfl hothers
    | false =>
      refine .inr ((value_follows _ (hkept rfl (not_isTypePart_of_isOperand hvalue) hgone)
        (fun _ => childTask_ne_trivia htask 1 value) (fun hbranch => ?_) hpending
        (hregular.branch.2.2 value (by simp)) hvalue (gap_of_unbroken hunbroken htiles)).imp_right
          fun hsplits => ⟨word, value, others, rfl, .inr hsplits⟩)
      refine childTask_value hkind hword ?_
      cases value <;> first | rfl | cases hbranch

theorem introduces_of_operand {kind : TokenKind} {operand : List Node}
    (hword : word.isToken kind) (hkind : kind ≠ .exportKeyword)
    (hoperand : StaysOnLine text word operand) (hothers : others.head?.all (isToken stop)) :
    Introduces text stop word (operand ++ others) := by
  refine ⟨⟨kind, hword, hkind⟩, ?_⟩
  rcases hoperand with rfl | ⟨value, rfl, hvalue, hunbroken⟩
  · exact .inl hothers
  · exact .inr ⟨value, others, rfl, hvalue, hunbroken, hothers⟩

theorem exists_introduces (hkind : kind.pause? = some stop) (hshape : kind.HasShape text children) :
    ∃ word rest, children = word :: rest ∧ Introduces text stop word rest := by
  have hhead : ∀ {stop : TokenKind} {others : List Node}, (∀ part ∈ others, part.isToken stop) →
      others.head?.all (isToken stop) := by
    intro stop others h
    cases others with
    | nil => rfl
    | cons first rest => exact h first List.mem_cons_self
  cases kind with
  | returnStatement | throwStatement =>
    cases hkind
    obtain ⟨word, operand, stop, rfl, hword, hstop, hoperand⟩ := hshape
    exact ⟨word, operand ++ stop, rfl, introduces_of_operand hword nofun hoperand (hhead hstop)⟩
  | yieldExpression =>
    cases hkind
    obtain ⟨word, star, operand, rfl, hword, hstar, hoperand⟩ := hshape
    refine ⟨word, star ++ operand, rfl, ?_⟩
    cases star with
    | nil =>
      have hbare : Introduces text .asterisk word (operand ++ []) :=
        introduces_of_operand hword nofun hoperand rfl
      simpa using hbare
    | cons first star => exact ⟨⟨_, hword, nofun⟩, .inl (hstar first List.mem_cons_self)⟩
  | _ => cases hkind

theorem leaves_of_isLeaf (h : word.isLeaf) :
    (branch kind span marks (word :: rest)).leaves = word :: leavesOf rest := by
  cases word with
  | branch kind span marks children => cases h
  | _ => rfl

theorem calm_of_unbroken (h : word.Unbroken text)
    (htiles : (branch kind span marks (word :: value :: rest)).Tiles text i j) :
    Calm text (leavesOf (value :: rest)) := by
  have hchildren := htiles.tileAll
  obtain ⟨k, -, hrest⟩ := tileAll_cons.1 hchildren
  obtain ⟨l, hvalue, -⟩ := tileAll_cons.1 hrest
  refine ⟨value.firstLeaf, value.leaves.tail ++ leavesOf rest, ?_, gap_of_unbroken h htiles⟩
  rw [leavesOf, hvalue.leaves_eq_cons]
  rfl

/-- The leaves of such a node in the source. -/
theorem introduction_source (htiles : (branch kind span marks (word :: rest)).Tiles text i j)
    (hintroduces : Introduces text stop word rest) :
    ∃ back, (branch kind span marks (word :: rest)).leaves = word :: back ∧
      (back.head?.all (isToken stop) ∨ Calm text back) := by
  obtain ⟨⟨word', hword, -⟩, hfollows⟩ := hintroduces
  refine ⟨leavesOf rest, leaves_of_isLeaf (isLeaf_of_isToken hword), ?_⟩
  rcases hfollows with hhead | ⟨value, others, rfl, -, hunbroken, -⟩
  · refine .inl ?_
    cases rest with
    | nil => rfl
    | cons first rest =>
      cases first with
      | branch kind span marks children => cases hhead
      | _ => exact hhead
  · exact .inr (calm_of_unbroken hunbroken htiles)

/-! ## Arrow functions -/

/-- The leaves of an arrow function: it does not start with `async`, or what follows the word is on
its line, or was held there by type parameters. -/
theorem arrow_leaves (htask : task.isCommon)
    (hregular : (branch .arrowFunction span marks children).Regular s.source)
    (htiles : (branch .arrowFunction span marks children).Tiles s.source i j) (w : Walk) :
    ∃ first back, leavesAlong s.source w
        (steps s task (branch .arrowFunction span marks children)) = first :: back ∧
      (first.isToken .asyncKeyword = false ∨ Calm s.source back ∨
        (branch .arrowFunction span marks children).Splits s.source) := by
  obtain ⟨hshape, -, hchildren⟩ := hregular.branch
  obtain ⟨⟨word, types, parameters, rest, rfl, harrow⟩, -⟩ := hshape nofun
  have hparameters := hchildren parameters (by simp)
  obtain ⟨hleaf, hother⟩ := firstLeaf_parameters hparameters harrow.parameters
  have hcomes := fun lastKept =>
    comesTo_parameters (s := s) span rest lastKept htask hparameters harrow
  rcases harrow.word with rfl | ⟨async, rfl, hasync, hunbroken⟩
  · obtain ⟨w', back, -, hleaves⟩ := (hcomes none).leaves s.source
      { w with findings := w.findings ++ (verdicts s ⟨.arrowFunction, span, task,
        [] ++ types ++ parameters :: rest⟩).filterMap (·.finding) }
    refine ⟨_, back, hleaves, .inl ?_⟩
    rw [isToken_of_label_eq label_visitLeaf]
    exact hother _ nofun nofun
  · have hkind : NodeKind.arrowFunction ≠ .variableDeclaration := nofun
    have hpolicy : policy .arrowFunction = .plain ∨ policy .arrowFunction = .arrow := .inr rfl
    obtain ⟨async', w', hpending, hleaves⟩ := steps_word s span marks (types ++ parameters :: rest)
      hpolicy hkind htask (isLeaf_of_isToken hasync) (isToken_of_ne hasync nofun) w
    refine ⟨async', _, hleaves, .inr ?_⟩
    have hcalm := (hcomes (some async.label)).calm s.source hleaf hpending
    rw [List.length_singleton, List.drop_one] at hcalm
    rcases harrow.types with rfl | ⟨list, rfl, hlist⟩
    · exact .inl (hcalm (gap_of_unbroken hunbroken htiles))
    · rw [opened_cons, hother .endOfFile nofun nofun] at hcalm
      cases hbreak : hasLineBreak (join (list.firstLeaf.leadingTrivia s.source)
          (parameters.firstLeaf.leadingTrivia s.source) true) with
      | true =>
        exact .inr ⟨async, list, parameters :: rest, rfl,
          .inl ⟨span, marks, list, parameters, rest, rfl, hlist, hbreak⟩⟩
      | false => exact .inl (hcalm hbreak)

/-- The leaves of an arrow function in the source. -/
theorem arrow_source (hregular : (branch .arrowFunction span marks children).Regular text)
    (htiles : (branch .arrowFunction span marks children).Tiles text i j) :
    ∃ first back, (branch .arrowFunction span marks children).leaves = first :: back ∧
      (first.isToken .asyncKeyword = false ∨ Calm text back) := by
  obtain ⟨hshape, -, hchildren⟩ := hregular.branch
  obtain ⟨⟨word, types, parameters, rest, rfl, harrow⟩, -⟩ := hshape nofun
  rcases harrow.word with rfl | ⟨async, rfl, hasync, hunbroken⟩
  · refine ⟨_, _, htiles.leaves_eq_cons, .inl ?_⟩
    rcases harrow.types with rfl | ⟨list, rfl, hlist⟩
    · have hfirst := firstLeaf_parameters (hchildren parameters (by simp)) harrow.parameters
      exact hfirst.2 _ nofun nofun
    · have hlistRegular := hchildren list (by simp)
      obtain ⟨span', marks', children', rfl⟩ := exists_of_isKind hlist
      obtain ⟨first, rest', rfl, hfirst⟩ := exists_head (hlistRegular.branch.1 nofun)
      have hsame := firstLeaf_of_isLeaf (isLeaf_of_isToken hfirst)
      have hless : first.firstLeaf.isToken .lessThan := by rwa [hsame]
      exact isToken_of_ne hless nofun
  · have hintroduces : ∃ next others, types ++ parameters :: rest = next :: others := by
      cases types <;> exact ⟨_, _, rfl⟩
    obtain ⟨next, others, hnext⟩ := hintroduces
    rw [List.singleton_append, List.cons_append, hnext] at htiles ⊢
    exact ⟨async, _, leaves_of_isLeaf (isLeaf_of_isToken hasync),
      .inr (calm_of_unbroken hunbroken htiles)⟩

/-! ## Trees -/

/-- What the leaves of a restricted node say about its lines. -/
theorem staysTogether_of_leaves {back : List Node} {other : Prop}
    (hrestricted : part.isRestricted) (hkind : part.kind? = some kind)
    (hleaves : part.leaves = first :: back) (harrow : kind = .arrowFunction →
      first.isToken .asyncKeyword = false ∨ Calm text back ∨ other)
    (hpause : ∀ stop, kind.pause? = some stop →
      back.head?.all (isToken stop) ∨ Calm text back ∨ other) :
    part.StaysTogether text ∨ other := by
  have hcalm : Calm text back → part.StaysTogether text := by
    rintro ⟨next, rest, rfl, hnext⟩
    exact ⟨first, next, rest, hleaves, hnext⟩
  unfold isRestricted at hrestricted
  rw [hkind, hleaves] at hrestricted
  by_cases h : kind = .arrowFunction
  · subst h
    exact ((harrow rfl).resolve_left (by simpa using hrestricted)).imp_left hcalm
  · cases back with
    | nil => simp [h] at hrestricted
    | cons next rest =>
      have hrestricted : (kind.pause?.any fun pause => !next.isToken pause) := by
        simpa [h] using hrestricted
      obtain ⟨stop, hstop, hnext⟩ := (Option.any_eq_true _ _).1 hrestricted
      exact ((hpause stop hstop).resolve_left (by simpa using hnext)).imp_left hcalm

theorem kind_of_isRestricted (h : node.isRestricted) : ∃ kind, node.kind? = some kind ∧
    (kind = .arrowFunction ∨ ∃ stop, kind.pause? = some stop) := by
  unfold isRestricted at h
  split at h
  · exact ⟨_, ‹_›, .inl rfl⟩
  · obtain ⟨stop, hstop, -⟩ := (Option.any_eq_true _ _).1 h
    exact ⟨_, ‹_›, .inr ⟨stop, hstop⟩⟩
  · cases h

theorem exists_of_kind? (h : node.kind? = some kind) :
    ∃ span marks children, node = branch kind span marks children :=
  exists_of_isKind (beq_iff_eq.2 h)

/-- What a visit makes of a node keeps its lines, unless type parameters held them together. -/
theorem visit_staysTogether (htask : task.isCommon) (hregular : node.Regular s.source)
    (htiles : node.Tiles s.source i j) (w : Walk)
    (hrestricted : (visit s task w node).node.isRestricted) :
    (visit s task w node).node.StaysTogether s.source ∨ node.Splits s.source := by
  obtain ⟨kind, hkind, hcases⟩ := kind_of_isRestricted hrestricted
  obtain ⟨span, marks, children, rfl⟩ := exists_of_kind?
    ((kind?_of_label_eq (label_visit s task w node).1).symm.trans hkind)
  have hleaves := (visit_follows s (branch kind span marks children) task w).1
  rcases hcases with rfl | ⟨stop, hstop⟩
  · obtain ⟨first, back, hsteps, hback⟩ := arrow_leaves htask hregular htiles w
    exact staysTogether_of_leaves hrestricted hkind (hleaves.trans hsteps) (fun _ => hback) nofun
  · obtain ⟨word, rest, rfl, hintroduces⟩ := exists_introduces hstop
      (hregular.branch.1 (by rintro rfl; cases hstop))
    obtain ⟨word', back, hsteps, hback⟩ :=
      introduction_leaves hstop htask hregular htiles hintroduces w
    refine staysTogether_of_leaves hrestricted hkind (hleaves.trans hsteps)
      (by rintro rfl; cases hstop) fun stop' hstop' => ?_
    obtain rfl : stop = stop' := Option.some.inj (hstop.symm.trans hstop')
    exact hback

/-- Nodes of the source keep their lines, also with other trivia in front of them. -/
theorem source_staysTogether {old : Node} (hregular : old.Regular text)
    (htiles : old.Tiles text i j) (hlabel : part.label = old.label)
    (hleaves : part.leaves = first :: old.leaves.tail) (hfirst : first.label = old.firstLeaf.label)
    (hrestricted : part.isRestricted) : part.StaysTogether text := by
  obtain ⟨kind, hkind, hcases⟩ := kind_of_isRestricted hrestricted
  obtain ⟨span, marks, children, rfl⟩ :=
    exists_of_kind? ((kind?_of_label_eq hlabel).symm.trans hkind)
  have hold := htiles.leaves_eq_cons
  refine (staysTogether_of_leaves hrestricted hkind hleaves ?_ ?_ :
    part.StaysTogether text ∨ False).resolve_right id
  · rintro rfl
    obtain ⟨first', back, hsource, hback⟩ := arrow_source hregular htiles
    rw [hsource] at hold ⊢
    obtain rfl := (List.cons.inj hold).1
    rw [isToken_of_label_eq hfirst]
    exact hback.imp_right .inl
  · intro stop hstop
    obtain ⟨word, rest, rfl, hintroduces⟩ := exists_introduces hstop
      (hregular.branch.1 (by rintro rfl; cases hstop))
    obtain ⟨back, hsource, hback⟩ := introduction_source htiles hintroduces
    rw [hsource]
    exact hback.imp_right .inl

/-- Another first leaf changes only the nodes that start with it. -/
theorem mem_replaceFirstLeaf : ∀ {node : Node},
    part ∈ (replaceFirstLeaf first node).descendants → part ∈ first.descendants ∨
      part ∈ node.descendants ∨ ∃ old ∈ node.descendants, old.firstLeaf = node.firstLeaf ∧
        part = replaceFirstLeaf first old
  | leaf token, h | inserted piece, h => .inl h
  | branch kind span marks [], h => by
    refine .inr (.inr ⟨_, mem_descendants_self _, rfl, ?_⟩)
    simpa [replaceFirstLeaf, replaceFirstLeafOf, descendants, descendantsOf] using h
  | branch kind span marks (child :: rest), h => by
    rcases mem_descendants_iff.1 h with rfl | ⟨new, hnew, hpart⟩
    · exact .inr (.inr ⟨_, mem_descendants_self _, rfl, rfl⟩)
    · have hnew : new ∈ replaceFirstLeaf first child :: rest := hnew
      rcases List.mem_cons.1 hnew with rfl | hnew
      · refine (mem_replaceFirstLeaf hpart).imp_right (Or.imp ?_ ?_)
        · exact fun hold => mem_descendants_iff.2 (.inr ⟨child, List.mem_cons_self, hold⟩)
        · rintro ⟨old, hold, hfirst, rfl⟩
          exact ⟨old, mem_descendants_iff.2 (.inr ⟨child, List.mem_cons_self, hold⟩), hfirst, rfl⟩
      · exact .inr (.inl (mem_descendants_iff.2 (.inr ⟨new, List.mem_cons_of_mem _ hnew, hpart⟩)))

theorem visit_typeSyntax_cases (htype : node.isTypeSyntax) (w : Walk) :
    (visit s task w node).node = node ∨ ∃ first, first.label = node.firstLeaf.label ∧
      first.span = node.firstLeaf.span ∧ (visit s task w node).node =
        replaceFirstLeaf first node := by
  cases node with
  | leaf token | inserted piece => cases htype
  | branch kind span marks children =>
    have hpolicy : policy kind = .typeSyntax := by
      simpa [isTypeSyntax, label, Label.satisfies] using htype
    rw [visit, if_pos (by simp [hpolicy])]
    unfold visitTypeSyntax
    dsimp only
    split
    · exact .inr ⟨_, label_visitLeaf, span_visitLeaf, rfl⟩
    · exact .inl rfl

/-- What lies in type syntax that stays comes from the source, with another first leaf of the same
label perhaps. -/
theorem exists_of_mem_typeSyntax (htiles : node.Tiles s.source i j)
    (htype : node.isTypeSyntax) (w : Walk)
    (hpart : part ∈ (visit s task w node).node.descendants) :
    part.kind? = none ∨ ∃ old ∈ node.descendants, ∃ first, part.label = old.label ∧
      part.leaves = first :: old.leaves.tail ∧ first.label = old.firstLeaf.label ∧
      first.span = old.firstLeaf.span ∧
      (1 < old.children.length → part.children.getLast? = old.children.getLast?) := by
  by_cases hold : part ∈ node.descendants
  · obtain ⟨k, l, htiles'⟩ := htiles.descendants part hold
    exact .inr ⟨part, hold, part.firstLeaf, rfl, htiles'.leaves_eq_cons, rfl, rfl, fun _ => rfl⟩
  rcases visit_typeSyntax_cases htype w with h | ⟨first, hfirst, hspan, h⟩
  · rw [h] at hpart
    exact absurd hpart hold
  · rw [h] at hpart
    have hleaf : first.kind? = none := by
      obtain ⟨token, k, hfirstLeaf, -⟩ := firstLeaf_of_tiles htiles
      rw [kind?_of_label_eq hfirst, hfirstLeaf]
      rfl
    rcases mem_replaceFirstLeaf hpart with hself | hsame | ⟨old, hmem, hsameFirst, rfl⟩
    · left
      cases first with
      | branch kind span marks children => cases hleaf
      | leaf token | inserted piece =>
        simp only [descendants, List.mem_singleton] at hself
        rw [hself]
        rfl
    · exact absurd hsame hold
    · obtain ⟨k, l, htiles'⟩ := htiles.descendants old hmem
      rw [← hsameFirst] at hfirst hspan
      refine .inr ⟨old, hmem, first, by cases old <;> first | rfl | exact hfirst,
        leaves_replaceFirstLeaf hleaf htiles', hfirst, hspan, fun hlength => ?_⟩
      cases old with
      | branch kind span marks children =>
        match children, hlength with
        | child :: next :: rest, _ => rfl
      | leaf token | inserted piece => cases hlength

theorem typeSyntax_staysTogether (hregular : node.Regular s.source)
    (htiles : node.Tiles s.source i j) (htype : node.isTypeSyntax) (w : Walk)
    (hpart : part ∈ (visit s task w node).node.descendants) (hrestricted : part.isRestricted) :
    part.StaysTogether s.source := by
  rcases exists_of_mem_typeSyntax htiles htype w hpart with
    hleaf | ⟨old, hold, first, hlabel, hleaves, hfirst, -, -⟩
  · obtain ⟨kind, hkind, -⟩ := kind_of_isRestricted hrestricted
    rw [hleaf] at hkind
    cases hkind
  · obtain ⟨k, l, htiles'⟩ := htiles.descendants old hold
    exact source_staysTogether (hregular.of_mem hold) htiles' hlabel hleaves hfirst hrestricted

end Erasure

open Erasure

variable {variant : Variant} {file text : String} {tree : SyntaxTree}

/-- The text after the erasure is that of the leaves of the new tree, trivia included. In it, what
follows the word of a `return`, `throw` or `yield` with an operand, or of an arrow function with
`async`, starts on the line of that word. The one exception are the type parameters of an arrow
function, if they alone stood between the word and the line break. -/
theorem SyntaxTree.erase_keeps_lines (hparse : SyntaxTree.parseAs variant file text = .ok tree)
    (options : Options) :
    (tree.erase options).tree.text = spell text (tree.erase options).tree.root.leaves ∧
      ∀ part ∈ (tree.erase options).tree.root.descendants, part.isRestricted = true →
        part.StaysTogether text ∨ ∃ old ∈ tree.root.descendants, old.label = part.label ∧
          old.span = part.span ∧ old.Splits text := by
  have hregular := SyntaxTree.parseAs_regular hparse
  obtain ⟨rfl, htiles, -⟩ := SyntaxTree.parseAs_tiles hparse
  refine ⟨SyntaxTree.text_erase htiles options, fun part hpart hrestricted => ?_⟩
  let s : Setting := .ofTree options tree.source tree.root
  rcases exists_reaches s tree.root .none {} part hpart with
    hinserted | ⟨task, w, old, hreaches, hold⟩
  · obtain ⟨kind, hkind, -⟩ := kind_of_isRestricted hrestricted
    obtain ⟨span, marks, children, rfl⟩ := exists_of_kind? hkind
    cases hinserted
  · have hmem := hreaches.visits.mem_descendants
    obtain ⟨i, j, htiles'⟩ := htiles.descendants old hmem
    rcases hold with rfl | ⟨htype, hpart⟩
    · have hlabel := label_visit s task w old
      obtain ⟨kind, hkind, hcases⟩ := kind_of_isRestricted hrestricted
      have htask : task.isCommon = true := by
        refine (hreaches.visits.belongs hregular).isCommon
          ((kind?_of_label_eq hlabel.1).symm.trans hkind) ?_ ?_ ?_
        all_goals
          rintro rfl
          rcases hcases with hcases | ⟨stop, hstop⟩
          · cases hcases
          · cases hstop
      refine (visit_staysTogether (s := s) htask (hregular.of_mem hmem) htiles' w
        hrestricted).imp_right fun hsplits => ?_
      exact ⟨old, hmem, hlabel.1.symm, hlabel.2.symm, hsplits⟩
    · exact .inl (typeSyntax_staysTogether (s := s) (hregular.of_mem hmem) htiles' htype w hpart
        hrestricted)

/-- An operand on the line after its type is put in parentheses, and type parameters on one line go
without a trace. -/
theorem SyntaxTree.erase_keeps_lines_generator :
    ∃ tree, SyntaxTree.parseAs .standard "a.ts"
        "function* f() \x7b yield <T>\n a; return async <T>(b) => b \x7d" = .ok tree ∧
      ((tree.erase {}).tree.text = "function* f() \x7b yield (\n a); return async (b) => b \x7d" ∧
        ((tree.erase {}).tree.root.descendants.filter isRestricted).map label =
          [.branch .yieldExpression, .branch .returnStatement, .branch .arrowFunction]) ∧
      ∀ part ∈ (tree.erase {}).tree.root.descendants, part.isRestricted = true →
        part.StaysTogether "function* f() \x7b yield <T>\n a; return async <T>(b) => b \x7d" ∨
          ∃ old ∈ tree.root.descendants, old.label = part.label ∧ old.span = part.span ∧
            old.Splits "function* f() \x7b yield <T>\n a; return async <T>(b) => b \x7d" :=
  SyntaxTree.exists_checked_and (by decide +kernel) fun _ hparse _ =>
    (SyntaxTree.erase_keeps_lines hparse {}).2

theorem Erasure.not_staysTogether {part : Node}
    (h : ∀ next ∈ part.leaves[1]?, hasLineBreak (next.leadingTrivia text) = true) :
    ¬part.StaysTogether text := by
  rintro ⟨word, next, rest, hleaves, hnone⟩
  cases hnone.symm.trans (h next (by simp [hleaves]))

/-- The type parameters of an arrow function leave the line break behind them after `return`. -/
theorem SyntaxTree.erase_splits_return :
    ∃ tree, SyntaxTree.parseAs .standard "a.ts" "function f()\x7b return <T>\n(x) => x \x7d" =
      .ok tree ∧ (∃ part ∈ (tree.erase {}).tree.root.descendants, part.isRestricted = true ∧
        ¬part.StaysTogether "function f()\x7b return <T>\n(x) => x \x7d") ∧
      (tree.erase {}).tree.text = "function f()\x7b return\n(x) => x \x7d" :=
  (SyntaxTree.exists_checked (by decide +kernel)).imp fun tree
    (htree : _ ∧ (∃ part ∈ (tree.erase {}).tree.root.descendants, part.isRestricted = true ∧
      ∀ next ∈ part.leaves[1]?, hasLineBreak (leadingTrivia _ next) = true) ∧ _) =>
    ⟨htree.1, htree.2.1.imp fun part hpart => ⟨hpart.1, hpart.2.1, not_staysTogether hpart.2.2⟩,
      htree.2.2⟩

end Untype
