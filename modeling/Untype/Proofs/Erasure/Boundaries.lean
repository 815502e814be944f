-- Statements that come together because all those between them go: when a
-- semicolon is put between them, and when a line break is left there.
import Untype.Proofs.Erasure.Expressions
import Untype.Proofs.Erasure.Runs

namespace Untype

open Node Text

namespace Erasure

open Step

variable {s : Setting} {task : Task} {first second dropped list : Node} {gone others : List Node}
  {action action' : Action} {source : String} {w : Walk} {lastKept : Option Label}

/-- What was kept last once this was done with the child. -/
def Action.kept (child : Node) : Action → Label
  | .keep _ _ after => keptLabel child after
  | _ => .inserted

/-- Of two statements in a list something is kept, and all those between them go. -/
structure ComeTogether (s : Setting) (task : Task) (list first : Node) (action : Action)
    (gone : List Node) (second : Node) (action' : Action) : Prop where
  inList : ∃ kind span marks children before after,
    list = branch kind span marks children ∧ policy kind = .statements ∧
    children.zip (actionsOf s ⟨kind, span, task, children⟩) =
      before ++ (first, action) :: (gone.map (·, .remove .unit) ++ (second, action') :: after)
  isKept : ∀ removal, action ≠ .remove removal
  isKept' : ∀ removal, action' ≠ .remove removal
  isStatement : first.token? = none

/-- Whether a line break is left between two statements, where these comments are moved, the first
statement that goes has left this gap, and the second one has this trivia of its own. -/
def leavesBreak (moved gap own : String) : Bool :=
  hasLineBreak moved ||
    if hasComments gap then hasLineBreak gap || hasComments own && hasLineBreak (trimStart own)
    else hasLineBreak own

/-! ## Steps -/

theorem stepsAll_kept (policy : Policy) (lastKept : Option Label) (acts : List Action)
    (rest : List Node) (h : ∀ removal, action ≠ .remove removal) :
    stepsAll s policy lastKept (action :: acts) (first :: rest) =
      stepsAll s policy lastKept [action] [first] ++
        stepsAll s policy (some (action.kept first)) acts rest := by
  cases action with
  | remove removal => exact absurd rfl (h removal)
  | _ => simp [stepsAll, Action.kept]

theorem stepsAll_gone (policy : Policy) (lastKept : Option Label) (acts : List Action)
    (gone rest : List Node) :
    stepsAll s policy lastKept (.replicate gone.length (.remove .unit) ++ acts) (gone ++ rest) =
      gone.map (.pass · .unit (isFirst lastKept)) ++ stepsAll s policy lastKept acts rest := by
  induction gone with
  | nil => rfl
  | cons piece gone ih => simp [stepsAll, List.replicate_succ, ih]

theorem kept_ne_token (action : Action) (h : first.token? = none) (kind : TokenKind) :
    action.kept first ≠ .token kind := by
  have hlabel : first.label ≠ .token kind := by
    cases first with
    | leaf token => cases h
    | _ => simp [label]
  unfold Action.kept keptLabel
  repeat' split
  all_goals simp_all

theorem ComeTogether.steps_eq (h : ComeTogether s task list first action gone second action') :
    ∃ front lastKept back, steps s task list =
      front ++ (stepsAll s .statements lastKept [action] [first] ++
        (gone.map (.pass · .unit false) ++
        (stepsAll s .statements (some (action.kept first)) [action'] [second] ++ back))) := by
  obtain ⟨⟨kind, span, marks, children, before, after, rfl, hpolicy, hzip⟩, hkept, hkept',
      hfirst⟩ := h
  have hlength : (actionsOf s ⟨kind, span, task, children⟩).length = children.length :=
    actions_length
  have hchildren := congrArg (List.map Prod.fst) hzip
  have hactions := congrArg (List.map Prod.snd) hzip
  rw [List.map_fst_zip hlength.ge] at hchildren
  rw [List.map_snd_zip hlength.le] at hactions
  simp only [List.map_append, List.map_cons, List.map_map, Function.comp_def, List.map_id',
    List.map_const'] at hchildren hactions
  obtain ⟨lastKept, hfront⟩ := stepsAll_append s .statements none
    (show (before.map Prod.snd).length = (before.map Prod.fst).length by simp)
  have hplace : isFirst (some (action.kept first)) = false := by
    cases hlabel : action.kept first with
    | token kind => exact absurd hlabel (kept_ne_token action hfirst kind)
    | _ => rfl
  rw [steps_branch (by rw [hpolicy]; decide), hactions, hpolicy, hchildren, hfront,
    stepsAll_kept _ _ _ _ hkept, stepsAll_gone, hplace, stepsAll_kept _ _ _ _ hkept']
  exact ⟨_ :: _, lastKept, _, rfl⟩

/-- Statements that go leave nothing but what waits. -/
theorem along_gone (source : String) (gone : List Node) (w : Walk) (passed : List Passed) :
    leavesAlong source w (gone.map (.pass · .unit false)) = [] ∧
      passedAfter passed (gone.map (.pass · .unit false)) = passed ++ gone.map (⟨·, .unit, false⟩) ∧
      (walkAlong source w (gone.map (.pass · .unit false))).lastChar = w.lastChar ∧
      ((w.removed ∨ gone ≠ []) →
        (walkAlong source w (gone.map (.pass · .unit false))).removed) := by
  induction gone generalizing w passed with
  | nil => simp [passedAfter]
  | cons piece gone ih =>
    obtain ⟨hleaves, hpassed, hlast, hremoved⟩ := ih (w.skipAt source piece .unit false)
      (passed ++ [⟨piece, .unit, false⟩])
    exact ⟨hleaves, by simpa [passedAfter] using hpassed, hlast, fun _ => hremoved (.inl rfl)⟩

/-- The walk knows the last character that it kept. -/
theorem lastChar_walkAlong {steps : List Step} (hof : ∀ step ∈ steps, step.IsOf source)
    {last : Node} (h : (leavesAlong source w steps).getLast? = some last) {c : Char}
    (hc : (leafText source last).toList.getLast? = some c) :
    (walkAlong source w steps).lastChar = some c := by
  induction steps using List.reverseRecOn with
  | nil => cases h
  | append_singleton steps step ih =>
    rw [List.forall_mem_append, List.forall_mem_singleton] at hof
    rw [leavesAlong_append, leavesAlong_cons, leavesAlong_nil, List.append_nil] at h
    rw [walkAlong_append, walkAlong_cons, walkAlong_nil]
    cases hmute : step.isMute with
    | true =>
      rw [leaves_of_isMute hmute, List.append_nil] at h
      rw [(next_of_isMute hmute).1, ih hof.1 h]
    | false =>
      obtain ⟨first, hkeeps⟩ := hof.2.keeps (w := walkAlong source w steps) hmute
      obtain ⟨tail, hopens⟩ := hkeeps.opens
      refine hkeeps.lastChar last ?_ c hc
      rw [hopens] at h ⊢
      simpa [List.getLast?_append, List.getLast?_cons] using h

/-- Up to the leaf that the steps come to, no list starts but that of a class. -/
theorem ComesTo.atStart {passed : List Node} {leaf : Node} {between back : List Step} {step : Step}
    (h : ComesTo passed leaf (between ++ step :: back)) (hmute : ∀ step ∈ between, step.isMute)
    (hloud : step.isMute = false) (source : String) (w : Walk) :
    step = .keep leaf ∧ (w.removed → startsClass leaf = false →
      (walkAlong source w between).atStart = w.atStart ∧ (walkAlong source w between).removed) := by
  induction between generalizing passed w with
  | nil =>
    cases h with
    | keep => exact ⟨rfl, fun hremoved _ => ⟨rfl, hremoved⟩⟩
    | _ => cases hloud
  | cons other between ih =>
    rw [List.forall_mem_cons] at hmute
    cases h with
    | keep => cases hmute.1
    | tell findings h => exact ih h hmute.2 ((Step.tell findings).next source w)
    | pass child first h =>
      have hrest := ih h hmute.2 ((Step.pass child .opening first).next source w)
      exact ⟨hrest.1, fun _ => hrest.2 rfl⟩
    | start atStart hclass h =>
      exact ⟨(ih h hmute.2 w).1, fun _ hother => by cases hclass.symm.trans hother⟩

/-- A statement that is an expression starts with its first leaf, or with what is put before it. -/
theorem comesTo_expression (h : ComeTogether s task list first action gone second action')
    (hkind : second.isKind .expressionStatement) (hregular : second.Regular s.source)
    (hcommon : ∀ task before after, action' = .keep task before after → task.isCommon) :
    ∃ passed leaf rest, leaf.isToken .classKeyword = false ∧
      stepsAll s .statements (some (action.kept first)) [action'] [second] =
        .start (!isClosed (action.kept first)) :: rest ∧ ComesTo passed leaf rest := by
  obtain ⟨span, marks, children, rfl⟩ := exists_of_isKind hkind
  have hunit : isUnit .statements (.branch .expressionStatement) (some (action.kept first)) := by
    simpa [isUnit] using kept_ne_token action h.isStatement .caseKeyword
  rw [stepsAll, enterSteps, label, hunit]
  cases action' with
  | remove removal => exact absurd rfl (h.isKept' removal)
  | replace piece => exact ⟨[], inserted piece, _, rfl, rfl, .keep _ _⟩
  | keep task before after =>
    cases before with
    | cons piece before => exact ⟨[], inserted piece, _, rfl, rfl, .keep _ _⟩
    | nil =>
      obtain ⟨value, stop, passed, leaf, rfl, hvalue, hstarts, hheads, hcomes⟩ :=
        comesTo_statement (hcommon task [] after rfl) hregular
      refine ⟨passed, leaf, _, ?_, rfl, ((hcomes.append _).append _).append _⟩
      rcases hheads.leaf_cases hvalue with rfl | ⟨-, hother⟩
      · exact hstarts.class'
      · exact hother _ (by simp)

theorem hasLineBreak_join_later (gap own : String) :
    hasLineBreak (join gap own false) =
      if hasComments gap then hasLineBreak gap || hasComments own && hasLineBreak (trimStart own)
      else hasLineBreak own := by
  unfold join
  cases hgap : hasComments gap with
  | false => simp
  | true =>
    have hne : gap.isEmpty = false := by
      cases hempty : gap.isEmpty with
      | false => rfl
      | true =>
        rw [String.isEmpty_iff.1 hempty] at hgap
        cases hgap
    simp only [hne]
    cases hasComments own with
    | true => simp
    | false =>
      simp only [Bool.not_true, Bool.and_false, Bool.false_eq_true, if_false, Bool.false_and,
        Bool.or_false, if_true]
      split
      · rename_i hsplit _
        simp [hasLineBreak_of_split hsplit]
      · rfl
      · rfl

/-- What stands in front of the first leaf of a statement, if these others went in front of it, and
the one before them ends with this character. A brace closes that one, or does not. -/
structure Run.Bounds (source : String) (run : Run) (closed : Bool) (c : Char) (dropped : Node)
    (others : List Node) (second new : Node) : Prop where
  delivers : run.Delivers source new
  /-- A semicolon is put in where the one statement would go on with the other. -/
  semicolon : second.isKind .expressionStatement → new.isToken .atSign = false → ∃ front,
    new.leadingTrivia source = front ++ (pendingAfter source run.passed).apply
      (run.kept.leadingTrivia source) (run.kept.isToken .endOfFile) ∧
    (front = ";" ↔ closed = false ∧ (leafText source new).toList.head?.any continuesExpression ∧
      c ≠ ';' ∧ c ≠ '\x7b' ∧ c ≠ ':')
  /-- If nothing goes at the end of the one before, the first of the others decides about the
  lines. -/
  lines : ∃ atEnd atStart, run.passed = atEnd ++ (dropped :: others).map (⟨·, .unit, false⟩) ++
    atStart ∧ ((∀ piece ∈ atEnd, piece.gap? source = none) → run.kept.isToken .endOfFile = false →
      hasLineBreak (new.leadingTrivia source) = leavesBreak (movedComments source run.moved)
        (unitGap (dropped.firstLeaf.leadingTrivia source)) (run.kept.leadingTrivia source))

theorem hasLineBreak_delivered {run : Run} {new : Node} {gap : String} (h : run.Delivers source new)
    (hgap : run.gap? source = some (gap, false)) (hend : run.kept.isToken .endOfFile = false) :
    hasLineBreak (new.leadingTrivia source) =
      leavesBreak (movedComments source run.moved) gap (run.kept.leadingTrivia source) := by
  obtain ⟨front, hfront, sep, hsep, htrivia⟩ := h.movesComments.trivia
  have hcalm : hasLineBreak front = false ∧ hasLineBreak sep = false := by
    simp only [List.mem_cons, List.not_mem_nil, or_false] at hfront hsep
    rcases hfront with rfl | rfl | rfl <;> rcases hsep with rfl | rfl <;> exact ⟨rfl, rfl⟩
  rw [htrivia, hgap, hend]
  simp only [hasLineBreak_append, hcalm, Bool.false_or, Bool.or_false, leavesBreak]
  congr 1
  exact hasLineBreak_join_later gap _

/-- After a removal, an expression statement opens with a semicolon exactly where what was written
before it could go on with it. -/
theorem ComesTo.needsSemicolon_iff {passed : List Node} {leaf node : Node}
    {rest between after : List Step} {step : Step} {closed : Bool} {w : Walk} {c : Char}
    (h : ComesTo passed leaf rest) (hclass : leaf.isToken .classKeyword = false)
    (hsplit : .start (!closed) :: rest = between ++ step :: after)
    (hmute : ∀ step ∈ between, step.isMute) (hloud : step.isMute = false)
    (hkeep : ∀ leaf, step = .keep leaf → node = leaf) (hat : node.isToken .atSign = false)
    (hremoved : w.removed) (hchar : w.lastChar = some c) (first : Option Char) :
    needsSemicolon (walkAlong source w between) first ↔
      closed = false ∧ first.any continuesExpression ∧ c ≠ ';' ∧ c ≠ '\x7b' ∧ c ≠ ':' := by
  cases between with
  | nil => cases hsplit; cases hloud
  | cons other between =>
    obtain ⟨rfl, rfl⟩ := List.cons.inj hsplit
    obtain ⟨rfl, hstart⟩ := h.atStart (List.forall_mem_cons.1 hmute).2 hloud source
      ((Step.start !closed).next source w)
    obtain rfl := hkeep leaf rfl
    obtain ⟨hunit, hgone⟩ := hstart hremoved (by rw [startsClass, hclass, hat]; rfl)
    have hlastChar : (walkAlong source w _).lastChar = some c :=
      (walkAlong_of_isMute hmute).1.trans hchar
    rw [walkAlong_cons] at hlastChar ⊢
    rw [needsSemicolon, hunit, hgone, hlastChar]
    simp [next, and_assoc]

/-- The walk over two statements that come together. -/
theorem bounds_along {one two : List Step} {closed : Bool} (before back : List Step)
    (hone : ∀ step ∈ one, step.IsOf source) (htwo : ∀ step ∈ two, step.IsOf source)
    (hopens : second.isKind .expressionStatement → ∃ passed leaf rest,
      leaf.isToken .classKeyword = false ∧
      two = .start (!closed) :: rest ∧ ComesTo passed leaf rest) :
    ∃ w w', leavesAlong source {} (before ++ (one ++
        ((dropped :: others).map (.pass · .unit false) ++ (two ++ back)))) =
      leavesAlong source {} before ++ (leavesAlong source w one ++ (leavesAlong source w' two ++
        leavesAlong source (walkAlong source w' two) back)) ∧
    ∀ last new c, (leavesAlong source w one).getLast? = some last →
      (leavesAlong source w' two).head? = some new →
        (leafText source last).toList.getLast? = some c →
      ∃ run ∈ runsFrom [] (before ++ (one ++
          ((dropped :: others).map (.pass · .unit false) ++ (two ++ back)))),
        run.Bounds source closed c dropped others second new := by
  obtain ⟨hnone, hpassed, hchar, hremoved⟩ := along_gone source (dropped :: others)
    (walkAlong source (walkAlong source {} before) one) (passedAfter (passedAfter [] before) one)
  have hwaits := walkAlong_pending (show ({} : Walk).pending = pendingAfter source [] from rfl)
    (before ++ (one ++ (dropped :: others).map (.pass · .unit false)))
  rw [walkAlong_append, walkAlong_append, passedAfter_append, passedAfter_append, hpassed] at hwaits
  rw [runsFrom_append, runsFrom_append, runsFrom_append, hpassed, runsFrom_append,
    leavesAlong_append, leavesAlong_append, leavesAlong_append, hnone, leavesAlong_append]
  generalize walkAlong source (walkAlong source (walkAlong source {} before) one) _ = w'
    at hwaits hchar hremoved ⊢
  generalize passedAfter (passedAfter [] before) one = atEnd at hwaits ⊢
  refine ⟨walkAlong source {} before, w', rfl, fun last new c hlast hnew hc => ?_⟩
  rw [lastChar_walkAlong hone hlast hc] at hchar
  have hremoved : w'.removed := hremoved (.inr (by simp))
  obtain ⟨rest, hleaves⟩ := List.head?_eq_some_iff.1 hnew
  obtain ⟨between, step, after, node, runs, hsplit, hmute, hloud, hnode, hkeep, hruns, rfl⟩ :=
    leavesAlong_opens htwo hleaves (atEnd ++ (dropped :: others).map (⟨·, .unit, false⟩))
  have hpending := walkAlong_pending hwaits between
  have hdelivers := visitLeaf_delivers hpending hnode
  obtain ⟨later, hlater⟩ := (runsFrom_of_isMute hmute _).2
  refine ⟨_, by simp only [hruns, List.mem_append, List.mem_cons, true_or, or_true], hdelivers,
    fun hkind hat => ?_, atEnd, later, hlater, fun hquiet hend => ?_⟩
  · obtain ⟨passed, leaf, rest, hclass, rfl, hcomes⟩ := hopens hkind
    rw [← hpending]
    refine ⟨_, (leadingTrivia_visitLeaf hnode).trans (keptTrivia_eq ..), ?_⟩
    rw [isToken_of_label_eq label_visitLeaf] at hat
    rw [lead_eq_semicolon, leafText_visitLeaf]
    exact hcomes.needsSemicolon_iff hclass hsplit hmute hloud hkeep hat hremoved hchar _
  · refine hasLineBreak_delivered hdelivers ?_ hend
    rw [Run.gap?, hlater, List.findSome?_append, List.findSome?_append,
      List.findSome?_eq_none_iff.2 hquiet]
    rfl

theorem ComeTogether.meets (h : ComeTogether s task list first action gone second action') :
    Meets s task list second action' := by
  obtain ⟨kind, span, marks, children, before, after, rfl, hpolicy, hzip⟩ := h.inList
  obtain ⟨index, hindex⟩ := List.mem_iff_getElem?.1
    (show (second, action') ∈ children.zip _ by rw [hzip]; simp)
  obtain ⟨hchild, haction⟩ := List.getElem?_zip_eq_some.1 hindex
  exact ⟨kind, span, marks, children, index, rfl, by simp [hpolicy], hchild, haction⟩

/-- The walk starts with two statements that come together because the one between them goes. -/
def startsTogether (s : Setting) : Node → Bool
  | branch kind span _ children => policy kind == .statements &&
    match children.zip (actionsOf s ⟨kind, span, .none, children⟩) with
    | (first, .keep _ _ _) :: (_, .remove .unit) :: (_, .keep _ _ _) :: _ => first.token?.isNone
    | _ => false
  | _ => false

theorem exists_comeTogether (h : startsTogether s list) : ∃ first action dropped second action',
    ComeTogether s .none list first action [dropped] second action' := by
  unfold startsTogether at h
  split at h
  · rename_i kind span marks children
    obtain ⟨hpolicy, h⟩ := Bool.and_eq_true_iff.1 h
    split at h
    · rename_i first task before after dropped second task' before' after' rest hzip
      refine ⟨first, _, dropped, second, _, ⟨kind, span, marks, children, [], rest, rfl, ?_, hzip⟩,
        by simp, by simp, Option.isNone_iff_eq_none.1 h⟩
      exact beq_iff_eq.1 hpolicy
    · cases h
  · cases h

end Erasure

open Erasure Erasure.Step

/-- What is left of two statements stands side by side in the new tree. Where something is left of
both, this bounds them: the last character of the first, and what then stands before the first leaf
of the second. -/
def SyntaxTree.Bounds (tree : SyntaxTree) (options : Options) (first : Node) (action : Action)
    (dropped : Node) (others : List Node) (second : Node) (action' : Action) : Prop :=
  ∃ older newer lastKept w w' one two,
    (tree.erase options).tree.root.leaves = older ++ leavesOf one ++ leavesOf two ++ newer ∧
    one = (visitAll (.ofTree options tree.source tree.root) .statements lastKept w [action]
      [first]).nodes ∧
    two = (visitAll (.ofTree options tree.source tree.root) .statements
      (some (action.kept first)) w' [action'] [second]).nodes ∧
    ∀ last new c, (leavesOf one).getLast? = some last → (leavesOf two).head? = some new →
      (leafText tree.source last).toList.getLast? = some c → ∃ run ∈ tree.runs options,
        run.Bounds tree.source (isClosed (action.kept first)) c dropped others second new

/-- Where all statements between two of a list go, a semicolon comes between these two if a brace
does not close the first, which does not end with a semicolon, an opening brace or a colon either,
and the second is an expression with a first character that would go on with it. A line break is
left between them if one was moved there with comments, or else if the trivia in front of the first
that goes has comments and a line break there, or has no comments and the second starts a line. -/
theorem SyntaxTree.erase_bounds_statements {variant : Variant} {file text : String}
    {tree : SyntaxTree} (hparse : SyntaxTree.parseAs variant file text = .ok tree)
    {options : Options} {task : Task} {list first dropped second : Node} {others : List Node}
    {action action' : Action}
    (hvisits : Visits (.ofTree options tree.source tree.root) .none tree.root task list)
    (h : ComeTogether (.ofTree options tree.source tree.root) task list first action
      (dropped :: others) second action') :
    (tree.erase options).tree.text = spell text (tree.erase options).tree.root.leaves ∧
      tree.Bounds options first action dropped others second action' := by
  refine ⟨(SyntaxTree.erase_delivers hparse options).1, ?_⟩
  have hregular := SyntaxTree.parseAs_regular hparse
  obtain ⟨rfl, htiles, -⟩ := SyntaxTree.parseAs_tiles hparse
  have hof := steps_isOf (s := .ofTree options tree.source tree.root) tree.root .none htiles
  have hsecond : second.Regular tree.source := by
    obtain ⟨kind, span, marks, children, index, rfl, -, hchild, -⟩ := h.meets
    exact (hregular.of_mem hvisits.mem_descendants).branch.2.2 second (List.mem_of_getElem? hchild)
  have hopens : second.isKind .expressionStatement → _ := fun hkind =>
    comesTo_expression h hkind hsecond fun task before after haction => by
      obtain rfl := haction
      have hbelongs := (hvisits.child h.meets).belongs hregular
      exact hbelongs.isCommon (beq_iff_eq.1 hkind) (by simp) (by simp) (by simp)
  obtain ⟨pre, post, hinfix⟩ := hvisits.isInfix
  obtain ⟨front, lastKept, back, hsteps⟩ := h.steps_eq
  rw [hsteps] at hinfix
  rw [← hinfix] at hof
  rw [SyntaxTree.Bounds, leaves_erase, SyntaxTree.runs, ← hinfix]
  simp only [List.append_assoc, List.forall_mem_append] at hof ⊢
  rw [← List.append_assoc pre]
  obtain ⟨-, -, hone, -, htwo, -⟩ := hof
  obtain ⟨w, w', hleaves, hbounds⟩ : ∃ w w', _ ∧ _ :=
    bounds_along (pre ++ front) (back ++ post) hone htwo hopens
  rw [← (visitAll_follows _ [first] _ lastKept w _).1, ← (visitAll_follows _ [second] _ _ w' _).1]
    at hleaves hbounds
  exact ⟨_, _, lastKept, w, w', _, _, hleaves, rfl, rfl, hbounds⟩

/-- A name would be called, if there was no semicolon. -/
theorem SyntaxTree.erase_bounds_statements_call :
    ∃ tree, SyntaxTree.parseAs .standard "a.ts" "a\ninterface I \x7b\x7d\n(b)" = .ok tree ∧
      (tree.erase {}).tree.text = "a;\n(b)" ∧
      ∃ first action dropped second action',
        tree.Bounds {} first action dropped [] second action' := by
  obtain ⟨tree, hparse, htext, htogether⟩ : ∃ tree, SyntaxTree.parseAs .standard "a.ts"
      "a\ninterface I \x7b\x7d\n(b)" = .ok tree ∧ (tree.erase {}).tree.text = "a;\n(b)" ∧
      startsTogether (.ofTree {} tree.source tree.root) tree.root :=
    SyntaxTree.exists_checked (by decide +kernel)
  obtain ⟨first, action, dropped, second, action', h⟩ := exists_comeTogether htogether
  exact ⟨tree, hparse, htext, first, action, dropped, second, action',
    (SyntaxTree.erase_bounds_statements hparse .here h).2⟩

/-- The line break that ended the declaration goes with the interface, and none is left. -/
theorem SyntaxTree.erase_joins_lines :
    ∃ tree, SyntaxTree.parseAs .standard "a.ts" "let x = 1\ninterface I \x7b\x7d foo()" = .ok tree ∧
      (tree.erase {}).tree.text = "let x = 1 foo()" :=
  SyntaxTree.exists_checked (by decide +kernel)

end Untype
