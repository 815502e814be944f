-- The walk of the erasure as runs: each kept leaf with the pieces that were
-- passed over since the leaf before it. What the pieces leave behind stands
-- in front of the leaf.
import Untype.Proofs.Erasure.Separation
import Untype.Proofs.Trivia.Comments

namespace Untype

open Untype.Node Untype.Text

namespace Erasure

open Step

variable {source : String} {passed : List Passed} {new : Node}

/-! ## Pieces that are passed over -/

/-- A piece that is passed over. It stood first in its list, or did not. -/
structure Passed where
  child : Node
  removal : Removal
  first : Bool

namespace Passed

/-- The trivia in front of the piece that may stay, and whether it counts by itself. -/
def gap? (source : String) (piece : Passed) : Option (String × Bool) :=
  let trivia := piece.child.firstLeaf.leadingTrivia source
  match piece.removal with
  | .unit => some (unitGap trivia, piece.first)
  | .modifier => some (trivia, piece.first)
  | .opening => some (trivia, true)
  | .inside | .silent => none

/-- The tokens of the piece whose comments stay. -/
def moved (piece : Passed) : List Node :=
  match piece.removal with
  | .inside => piece.child.leaves
  | _ => []

end Passed

/-- What removed tokens leave behind, one after another. -/
def movedComments (source : String) : List Node → String
  | [] => ""
  | token :: rest => insideComments (token.leadingTrivia source) ++ movedComments source rest

theorem movedComments_append (source : String) (front back : List Node) :
    movedComments source (front ++ back) = movedComments source front ++
      movedComments source back := by
  induction front with
  | nil => simp [movedComments]
  | cons token front ih => simp [movedComments, ih, String.append_assoc]

/-- What waits when these pieces are passed over. -/
def pendingAfter (source : String) (passed : List Passed) : Pending :=
  { inherited := movedComments source (passed.flatMap Passed.moved)
    gap := passed.findSome? (Passed.gap? source) }

theorem foldl_inherit (source : String) (tokens : List Node) (pending : Pending) :
    tokens.foldl
      (fun pending token => pending.inherit (insideComments (token.leadingTrivia source)))
        pending =
      pending.inherit (movedComments source tokens) := by
  induction tokens generalizing pending with
  | nil => simp [movedComments, Pending.inherit]
  | cons token tokens ih =>
    rw [List.foldl_cons, ih]
    simp [movedComments, Pending.inherit, String.append_assoc]

theorem skipAt_pending {w : Walk} (h : w.pending = pendingAfter source passed) (child : Node)
    (removal : Removal) (first : Bool) :
    (w.skipAt source child removal first).pending =
      pendingAfter source (passed ++ [⟨child, removal, first⟩]) := by
  unfold Walk.skipAt pendingAfter
  rw [List.findSome?_append]
  cases removal with
  | inside =>
    simp only [foldl_inherit, h]
    simp [Pending.inherit, pendingAfter, Passed.moved, Passed.gap?, movedComments_append]
  | unit | modifier | opening | silent =>
    simp [h, Pending.collapse, pendingAfter, Passed.moved, Passed.gap?]

/-! ## Runs -/

/-- A leaf that is kept, and the pieces passed over since the one before it. -/
structure Run where
  passed : List Passed
  kept : Node

namespace Run

/-- The removed tokens whose comments come to stand in front of the leaf. -/
def moved (run : Run) : List Node := run.passed.flatMap Passed.moved

/-- The trivia of the first piece that leaves any. -/
def gap? (source : String) (run : Run) : Option (String × Bool) :=
  run.passed.findSome? (Passed.gap? source)

/-- The new leaf has the text of the kept one, and in front of it what waited. -/
structure Delivers (source : String) (run : Run) (new : Node) : Prop where
  label : new.label = run.kept.label
  text : leafText source new = leafText source run.kept
  trivia : ∃ lead ∈ ["", " ", ";"], new.leadingTrivia source = lead ++
    (pendingAfter source run.passed).apply (run.kept.leadingTrivia source)
      (run.kept.isToken .endOfFile)

end Run

/-- The runs of some steps, where some pieces were passed over before. -/
def runsFrom (passed : List Passed) : List Step → List Run
  | [] => []
  | step :: rest =>
    match step with
    | .keep node => ⟨passed, node⟩ :: runsFrom [] rest
    | .stay node =>
      ⟨passed, node.firstLeaf⟩ :: node.leaves.tail.map (Run.mk []) ++ runsFrom [] rest
    | .pass child removal first => runsFrom (passed ++ [⟨child, removal, first⟩]) rest
    | .tell _ | .start _ => runsFrom passed rest

section Delivers

variable {source : String} {w : Walk} {node : Node}

theorem visitLeaf_delivers (h : w.pending = pendingAfter source passed)
    (hnode : node.kind? = none) :
    Run.Delivers source ⟨passed, node⟩ (visitLeaf source w node).node := by
  refine ⟨label_visitLeaf, leafText_visitLeaf, ?_⟩
  rw [leadingTrivia_visitLeaf hnode, ← h]
  exact ⟨_, lead_mem _ _ _, keptTrivia_eq source w node⟩

theorem delivers_self (source : String) (node : Node) : Run.Delivers source ⟨[], node⟩ node :=
  ⟨rfl, rfl, "", by simp, by
    rw [apply_of_isEmpty (by simp [pendingAfter, movedComments, Pending.isEmpty]),
      String.empty_append]⟩

/-- Each leaf that the steps add comes from a run of theirs. -/
theorem leavesAlong_delivers {steps : List Step} (hof : ∀ step ∈ steps, step.IsOf source)
    (h : w.pending = pendingAfter source passed) :
    List.Forall₂ (Run.Delivers source) (runsFrom passed steps) (leavesAlong source w steps) := by
  induction steps generalizing w passed with
  | nil => exact .nil
  | cons step steps ih =>
    rw [List.forall_mem_cons] at hof
    rw [leavesAlong_cons]
    cases step with
    | tell findings | start atStart => exact ih hof.2 h
    | pass child removal first => exact ih hof.2 (skipAt_pending h child removal first)
    | keep node =>
      exact .cons (visitLeaf_delivers h (kind?_of_isLeafOf hof.1)) (ih hof.2 rfl)
    | stay node =>
      obtain ⟨i, j, htiles⟩ := hof.1
      have hleaves : (stay node).leaves source w =
        (visitLeaf source w node.firstLeaf).node :: node.leaves.tail :=
          leaves_visitTypeSyntax htiles
      obtain ⟨token, hfirst, -⟩ := htiles.mem_leaves _ htiles.firstLeaf_mem
      rw [hleaves]
      refine .cons (visitLeaf_delivers h (by rw [hfirst]; rfl)) (List.rel_append ?_ (ih hof.2 ?_))
      · rw [List.forall₂_map_left_iff, List.forall₂_same]
        exact fun part _ => delivers_self source part
      · rw [next, visitTypeSyntax, visitLeaf_walk]
        rfl

/-! ## Steps side by side -/

/-- The pieces that wait after the steps, if some pieces were passed over before. -/
def passedAfter (passed : List Passed) : List Step → List Passed
  | [] => passed
  | step :: rest =>
    match step with
    | .keep _ | .stay _ => passedAfter [] rest
    | .pass child removal first => passedAfter (passed ++ [⟨child, removal, first⟩]) rest
    | .tell _ | .start _ => passedAfter passed rest

theorem runsFrom_append (passed : List Passed) (front back : List Step) :
    runsFrom passed (front ++ back) =
      runsFrom passed front ++ runsFrom (passedAfter passed front) back := by
  induction front generalizing passed with
  | nil => rfl
  | cons step front ih => cases step <;> simp [runsFrom, passedAfter, ih]

theorem passedAfter_append (passed : List Passed) (front back : List Step) :
    passedAfter passed (front ++ back) = passedAfter (passedAfter passed front) back := by
  induction front generalizing passed with
  | nil => rfl
  | cons step front ih => cases step <;> simp [passedAfter, ih]

theorem walkAlong_pending (h : w.pending = pendingAfter source passed)
    (steps : List Step) :
    (walkAlong source w steps).pending = pendingAfter source (passedAfter passed steps) := by
  induction steps generalizing w passed with
  | nil => exact h
  | cons step steps ih =>
    rw [walkAlong_cons]
    cases step with
    | tell findings | start atStart => exact ih h
    | pass child removal first => exact ih (skipAt_pending h child removal first)
    | keep node => exact ih rfl
    | stay node =>
      refine ih ?_
      rw [next, visitTypeSyntax, visitLeaf_walk]
      rfl

theorem runsFrom_of_isMute {steps : List Step} (h : ∀ step ∈ steps, step.isMute)
    (passed : List Passed) :
    runsFrom passed steps = [] ∧ ∃ later, passedAfter passed steps = passed ++ later := by
  induction steps generalizing passed with
  | nil => exact ⟨rfl, [], (List.append_nil _).symm⟩
  | cons step steps ih =>
    rw [List.forall_mem_cons] at h
    cases step with
    | keep | stay => cases h.1
    | tell | start => exact ih h.2 passed
    | pass child removal first =>
      obtain ⟨hnone, later, hlater⟩ := ih h.2 (passed ++ [⟨child, removal, first⟩])
      exact ⟨hnone, _, hlater.trans (List.append_assoc ..)⟩

/-- The first leaf comes from the first run, and gets what waits then. -/
theorem leavesAlong_opens {steps : List Step} (hof : ∀ step ∈ steps, step.IsOf source)
    {rest : List Node} (h : leavesAlong source w steps = new :: rest) (passed : List Passed) :
    ∃ between step after node runs, steps = between ++ step :: after ∧
      (∀ step ∈ between, step.isMute) ∧ step.isMute = false ∧ node.kind? = none ∧
      (∀ leaf, step = .keep leaf → node = leaf) ∧
      runsFrom passed steps = ⟨passedAfter passed between, node⟩ :: runs ∧
      new = (visitLeaf source (walkAlong source w between) node).node := by
  obtain ⟨between, step, after, rfl, hmute, hloud, hhead⟩ := leavesAlong_head hof h
  rw [runsFrom_append, (runsFrom_of_isMute hmute passed).1]
  simp only [List.forall_mem_append, List.forall_mem_cons] at hof
  cases step with
  | tell | start | pass => cases hloud
  | keep node =>
    exact ⟨between, _, after, node, _, rfl, hmute, rfl, kind?_of_isLeafOf hof.2.1, by simp, rfl,
      Option.some.inj hhead.symm⟩
  | stay node =>
    obtain ⟨i, j, htiles⟩ := hof.2.1
    obtain ⟨token, hfirst, -⟩ := htiles.mem_leaves _ htiles.firstLeaf_mem
    rw [Step.leaves, leaves_visitTypeSyntax htiles] at hhead
    exact ⟨between, _, after, node.firstLeaf, _, rfl, hmute, rfl, by rw [hfirst]; rfl, by simp, rfl,
      Option.some.inj hhead.symm⟩

end Delivers

/-! ## All pieces, each once -/

/-- The tokens whose comments the step moves to the next leaf. -/
def Step.moved : Step → List Node
  | .pass child removal first => Passed.moved ⟨child, removal, first⟩
  | _ => []

/-- The runs have the moved tokens of the steps, each one once and in their order. -/
theorem runsFrom_moved (passed : List Passed) (steps : List Step) :
    ((runsFrom passed steps).flatMap Run.moved).Sublist
      (passed.flatMap Passed.moved ++ steps.flatMap Step.moved) := by
  induction steps generalizing passed with
  | nil => exact List.nil_sublist _
  | cons step steps ih =>
    cases step with
    | tell findings | start atStart => exact ih passed
    | pass child removal first =>
      have hrest := ih (passed ++ [⟨child, removal, first⟩])
      rw [List.flatMap_append, List.append_assoc] at hrest
      simpa [runsFrom, Step.moved] using hrest
    | keep node => exact (List.Sublist.refl _).append (ih [])
    | stay node =>
      have htail : (node.leaves.tail.map (Run.mk [])).flatMap Run.moved = [] := by
        rw [List.flatMap_eq_nil_iff, List.forall_mem_map]
        exact fun _ _ => rfl
      rw [runsFrom, List.cons_append, List.flatMap_cons, List.flatMap_append, htail]
      exact (List.Sublist.refl _).append (ih [])

theorem moved_enterSteps (policy : Policy) (child : Node) (lastKept : Option Label) :
    (enterSteps policy child lastKept).flatMap Step.moved = [] := by
  unfold enterSteps
  split <;> rfl

theorem moved_leaveSteps (policy : Policy) : (leaveSteps policy).flatMap Step.moved = [] := by
  unfold leaveSteps
  split <;> rfl

theorem moved_pieceSteps (policy : Policy) (pieces : List Inserted) :
    (pieceSteps policy pieces).flatMap Step.moved = [] := by
  induction pieces with
  | nil => rfl
  | cons piece pieces ih =>
    rw [pieceSteps, List.flatMap_cons, List.flatMap_append, moved_leaveSteps, ih]
    rfl

mutual

theorem steps_moved (s : Setting) : ∀ (node : Node) (task : Task),
    ((steps s task node).flatMap Step.moved).Sublist node.leaves
  | leaf token, task => by simp [steps, Step.moved]
  | inserted piece, task => by simp [steps, Step.moved]
  | branch kind span marks children, task => by
    rw [steps, Node.leaves]
    split
    · exact List.nil_sublist _
    · exact stepsAll_moved s children _ _ _

theorem stepsAll_moved (s : Setting) : ∀ (children : List Node) (policy : Policy)
    (lastKept : Option Label) (acts : List Action),
    ((stepsAll s policy lastKept acts children).flatMap Step.moved).Sublist (leavesOf children)
  | [], policy, lastKept, acts => by simp [stepsAll]
  | child :: rest, policy, lastKept, acts => by
    have hrest := fun lastKept => stepsAll_moved s rest policy lastKept acts.tail
    rw [stepsAll, leavesOf]
    cases acts.headD .stay with
    | remove removal =>
      refine List.Sublist.append ?_ (hrest lastKept)
      cases removal with
      | inside => exact .refl _
      | _ => exact List.nil_sublist _
    | replace piece =>
      simp only [List.flatMap_append, moved_enterSteps, moved_pieceSteps, List.nil_append]
      exact (hrest _).trans (List.sublist_append_right _ _)
    | keep task before after =>
      simp only [List.flatMap_append, moved_enterSteps, moved_pieceSteps, moved_leaveSteps,
        List.nil_append, List.append_nil]
      exact (steps_moved s child task).append (hrest _)

end

/-- A piece that is passed over before something is kept belongs to a run. -/
theorem mem_runsFrom {child : Node} {removal : Removal} {first : Bool} {step : Step}
    (hloud : step.isMute = false) {front back : List Step}
    (h : ⟨child, removal, first⟩ ∈ passed ∨ .pass child removal first ∈ front) :
    ∃ run ∈ runsFrom passed (front ++ step :: back), ⟨child, removal, first⟩ ∈ run.passed := by
  induction front generalizing passed with
  | nil =>
    obtain hpassed := h.resolve_right (by simp)
    cases step with
    | tell | start | pass => cases hloud
    | keep node | stay node => exact ⟨_, List.mem_cons_self, hpassed⟩
  | cons other front ih =>
    cases other with
    | tell findings | start atStart => exact ih (h.imp_right (by simp))
    | pass child' removal' first' =>
      refine ih ?_
      rcases h with hpassed | hmem
      · exact .inl (List.mem_append_left _ hpassed)
      · rcases List.mem_cons.1 hmem with hsame | hmem
        · cases hsame
          exact .inl (List.mem_append_right _ (List.mem_singleton_self _))
        · exact .inr hmem
    | keep node =>
      rcases h with hpassed | hmem
      · exact ⟨_, List.mem_cons_self, hpassed⟩
      · obtain ⟨run, hrun, hpiece⟩ := ih (.inr (by simpa using hmem) : _ ∈ [] ∨ _)
        exact ⟨run, List.mem_cons_of_mem _ hrun, hpiece⟩
    | stay node =>
      rcases h with hpassed | hmem
      · exact ⟨_, List.mem_cons_self, hpassed⟩
      · obtain ⟨run, hrun, hpiece⟩ := ih (.inr (by simpa using hmem) : _ ∈ [] ∨ _)
        exact ⟨run, List.mem_append_right _ hrun, hpiece⟩

/-! ## Files -/

/-- What waits is handed over as the moved comments, and then what waits besides them. -/
theorem apply_eq (pending : Pending) (own : String) (atEnd : Bool) :
    ∃ sep ∈ ["", " "], pending.apply own atEnd =
      pending.inherited ++ sep ++ ({ gap := pending.gap } : Pending).apply own atEnd := by
  obtain ⟨inherited, gap⟩ := pending
  generalize hbase : ({ gap } : Pending).apply own atEnd = base
  unfold Pending.apply at hbase ⊢
  dsimp only at hbase ⊢
  rw [if_pos (show "".isEmpty from rfl)] at hbase
  rw [hbase]
  split
  · rename_i hempty
    obtain rfl := String.isEmpty_iff.1 hempty
    exact ⟨"", by simp, by simp⟩
  · split
    · exact ⟨"", by simp, rfl⟩
    · exact ⟨" ", by simp, rfl⟩

/-- In front of the new leaf stand the comments of the moved tokens, all of them and in order. Only
the trivia of the leaf and of the first piece that leaves any follow. -/
structure Run.MovesComments (source : String) (run : Run) (new : Node) : Prop where
  text : leafText source new = leafText source run.kept
  trivia : ∃ lead ∈ ["", " ", ";"], ∃ sep ∈ ["", " "], new.leadingTrivia source =
    lead ++ movedComments source run.moved ++ sep ++
      ({ gap := run.gap? source } : Pending).apply (run.kept.leadingTrivia source)
        (run.kept.isToken .endOfFile)
  comments : ∀ token ∈ run.moved, HoldsComments (insideComments (token.leadingTrivia source))
    (token.leadingTrivia source)

theorem Run.Delivers.movesComments {run : Run} (h : run.Delivers source new) :
    run.MovesComments source new := by
  obtain ⟨lead, hlead, htrivia⟩ := h.trivia
  obtain ⟨sep, hsep, happly⟩ := apply_eq (pendingAfter source run.passed)
    (run.kept.leadingTrivia source) (run.kept.isToken .endOfFile)
  refine ⟨h.text, ⟨lead, hlead, sep, hsep, ?_⟩, fun token _ => insideComments_holdsComments _⟩
  rw [htrivia, happly, ← String.append_assoc, ← String.append_assoc]
  rfl

/-- Of the first piece that leaves trivia, that trivia stands in front of the new leaf, up to the
place where it is cut. -/
structure Run.KeepsGap (source : String) (run : Run) (new : Node) : Prop where
  text : leafText source new = leafText source run.kept
  trivia : ∃ lead ∈ ["", " ", ";"], ∃ sep ∈ ["", " "], ∃ kept rest, new.leadingTrivia source =
    lead ++ movedComments source run.moved ++ sep ++ kept ++ rest ∧
      (run.gap? source = none → kept = "" ∧ rest = run.kept.leadingTrivia source) ∧
      ∀ gap first, run.gap? source = some (gap, first) →
        IsJoined gap (run.kept.leadingTrivia source) kept rest (run.kept.isToken .endOfFile)

theorem Run.Delivers.keepsGap {run : Run} (h : run.Delivers source new) :
    run.KeepsGap source new := by
  obtain ⟨lead, hlead, sep, hsep, htrivia⟩ := h.movesComments.trivia
  refine ⟨h.text, lead, hlead, sep, hsep, ?_⟩
  cases hgap : run.gap? source with
  | none =>
    refine ⟨"", run.kept.leadingTrivia source, ?_, fun _ => ⟨rfl, rfl⟩, nofun⟩
    rw [htrivia, hgap, String.append_empty]
    rfl
  | some gap =>
    obtain ⟨gap, first⟩ := gap
    have hjoined : ∃ kept rest, ({ gap := some (gap, first) } : Pending).apply
        (run.kept.leadingTrivia source) (run.kept.isToken .endOfFile) = kept ++ rest ∧
          IsJoined gap (run.kept.leadingTrivia source) kept rest (run.kept.isToken .endOfFile) := by
      cases run.kept.isToken .endOfFile with
      | true => exact joinAtEnd_isJoined gap (run.kept.leadingTrivia source)
      | false => exact join_isJoined gap (run.kept.leadingTrivia source) first
    obtain ⟨kept, rest, happly, hjoined⟩ := hjoined
    refine ⟨kept, rest, ?_, nofun, ?_⟩
    · rw [htrivia, hgap, happly, ← String.append_assoc]
    · rintro _ _ ⟨rfl, rfl⟩
      exact hjoined

end Erasure

open Erasure Erasure.Step

/-- The runs of the erasure of a file. -/
def SyntaxTree.runs (tree : SyntaxTree) (options : Options) : List Run :=
  runsFrom [] (steps (.ofTree options tree.source tree.root) .none tree.root)

section Files

variable {variant : Variant} {file text : String} {tree : SyntaxTree}

theorem SyntaxTree.erase_delivers (hparse : SyntaxTree.parseAs variant file text = .ok tree)
    (options : Options) :
    (tree.erase options).tree.text = spell text (tree.erase options).tree.root.leaves ∧
      List.Forall₂ (Run.Delivers text) (tree.runs options)
        (tree.erase options).tree.root.leaves := by
  obtain ⟨rfl, htiles, -⟩ := SyntaxTree.parseAs_tiles hparse
  refine ⟨SyntaxTree.text_erase htiles options, ?_⟩
  rw [leaves_erase]
  exact leavesAlong_delivers (steps_isOf tree.root .none htiles) rfl

theorem SyntaxTree.mem_runs (hparse : SyntaxTree.parseAs variant file text = .ok tree)
    (options : Options) {piece : Node} {removal : Removal}
    (h : Removes (.ofTree options text tree.root) .none tree.root piece removal) :
    ∃ run ∈ tree.runs options, ∃ first, ⟨piece, removal, first⟩ ∈ run.passed := by
  obtain ⟨rfl, -, statements, token, hroot, hkind⟩ := SyntaxTree.parseAs_tiles hparse
  obtain ⟨first, hmem⟩ := h.mem_steps
  unfold SyntaxTree.runs
  generalize Setting.ofTree options tree.source tree.root = s at hmem ⊢
  obtain ⟨front, hsteps⟩ := steps_endOfFile s statements hkind
  rw [hroot, group, hsteps] at hmem ⊢
  obtain ⟨run, hrun, hpiece⟩ := mem_runsFrom
    (show (Step.keep (leaf token)).isMute = false from rfl) (.inr (by simpa using hmem))
  exact ⟨run, hrun, first, hpiece⟩

end Files

/-- The comments in front of tokens that are removed inside a line stay: each such token belongs to
one leaf, the next one that is kept, and in front of that stand the comments of all its tokens, in
order and at their places, up to white space at the end of the trivia. Line comments end with a
newline there. -/
theorem SyntaxTree.erase_moves_comments {variant : Variant} {file text : String} {tree : SyntaxTree}
    (hparse : SyntaxTree.parseAs variant file text = .ok tree) (options : Options) :
    (∀ piece, Removes (.ofTree options text tree.root) .none tree.root piece .inside →
      ∃ run ∈ tree.runs options, ∀ token ∈ piece.leaves, token ∈ run.moved) ∧
    ((tree.runs options).flatMap Run.moved).Sublist tree.root.leaves ∧
    (tree.erase options).tree.text = spell text (tree.erase options).tree.root.leaves ∧
    List.Forall₂ (Run.MovesComments text) (tree.runs options)
      (tree.erase options).tree.root.leaves := by
  obtain ⟨htext, hdelivers⟩ := SyntaxTree.erase_delivers hparse options
  refine ⟨fun piece hpiece => ?_, ?_, htext, hdelivers.imp fun run new h => h.movesComments⟩
  · obtain ⟨run, hrun, first, hpassed⟩ := SyntaxTree.mem_runs hparse options hpiece
    exact ⟨run, hrun, fun token htoken => List.mem_flatMap.2 ⟨_, hpassed, htoken⟩⟩
  · exact (runsFrom_moved [] _).trans (steps_moved _ tree.root .none)

/-- Comments on both sides of the type of a variable, and in it. -/
theorem SyntaxTree.erase_moves_comments_annotation :
    ∃ tree, SyntaxTree.parseAs .standard "a.ts" "let x /* a */ : A /* b */ < // c\n B> = 1" =
      .ok tree ∧ (tree.runs {}).map (fun run => movedComments
        "let x /* a */ : A /* b */ < // c\n B> = 1" run.moved) =
          ["", "", " /* a */ /* b */ // c\n", "", ""] ∧
      List.Forall₂ (Run.MovesComments "let x /* a */ : A /* b */ < // c\n B> = 1") (tree.runs {})
        (tree.erase {}).tree.root.leaves :=
  SyntaxTree.exists_checked_and (by decide +kernel) fun _ hparse _ =>
    (SyntaxTree.erase_moves_comments hparse {}).2.2.2

/-- White space at the end of a line comment that ends the trivia of its token is lost. -/
theorem SyntaxTree.erase_trims_comment :
    ∃ tree, SyntaxTree.parseAs .standard "a.ts" "let x: // c \n number = 1\n" = .ok tree ∧
      (∃ run ∈ tree.runs {}, ∃ token ∈ run.moved,
        ∃ comment ∈ comments (token.leadingTrivia "let x: // c \n number = 1\n"),
          comment.text (token.leadingTrivia "let x: // c \n number = 1\n") = "// c ") ∧
      (tree.erase {}).tree.text = "let x // c\n = 1\n" :=
  SyntaxTree.exists_checked (by decide +kernel)

/-- Of the pieces between two kept leaves, the first one that leaves the trivia in front of it does
so without loss, unless the own trivia of the second leaf has a newline and no comment: then what
stands behind the last newline goes. The later pieces leave nothing. Comments of the second leaf
stay and stand last. -/
theorem SyntaxTree.erase_keeps_gaps {variant : Variant} {file text : String} {tree : SyntaxTree}
    (hparse : SyntaxTree.parseAs variant file text = .ok tree) (options : Options) :
    (∀ piece removal, Removes (.ofTree options text tree.root) .none tree.root piece removal →
      ∃ run ∈ tree.runs options, ∃ first, ⟨piece, removal, first⟩ ∈ run.passed) ∧
    (tree.erase options).tree.text = spell text (tree.erase options).tree.root.leaves ∧
    List.Forall₂ (Run.KeepsGap text) (tree.runs options)
      (tree.erase options).tree.root.leaves := by
  obtain ⟨htext, hdelivers⟩ := SyntaxTree.erase_delivers hparse options
  exact ⟨fun piece removal hpiece => SyntaxTree.mem_runs hparse options hpiece, htext,
    hdelivers.imp fun run new h => h.keepsGap⟩

/-- A removed interface between two comments, the first of which is its own. -/
theorem SyntaxTree.erase_keeps_gaps_interface :
    ∃ tree, SyntaxTree.parseAs .standard "a.ts" "a /* b */\ninterface I \x7b\x7d // c\n(d)" =
      .ok tree ∧ (tree.runs {}).map (Run.gap? "a /* b */\ninterface I \x7b\x7d // c\n(d)") =
        [none, some (" /* b */\n", false), none, none, none] ∧
      List.Forall₂ (Run.KeepsGap "a /* b */\ninterface I \x7b\x7d // c\n(d)") (tree.runs {})
        (tree.erase {}).tree.root.leaves :=
  SyntaxTree.exists_checked_and (by decide +kernel) fun _ hparse _ =>
    (SyntaxTree.erase_keeps_gaps hparse {}).2.2

/-- Of two removed interfaces, the comment that stays in front of the second one is lost. -/
theorem SyntaxTree.erase_loses_comment :
    ∃ tree, SyntaxTree.parseAs .standard "a.ts"
        "/* a */ interface A \x7b\x7d\n/* b */ interface B \x7b\x7d\nfoo()\n" = .ok tree ∧
      (∃ run ∈ tree.runs {}, ∃ piece ∈ run.passed, Passed.gap?
        "/* a */ interface A \x7b\x7d\n/* b */ interface B \x7b\x7d\nfoo()\n" piece =
          some ("\n/* b */ ", true)) ∧
      (tree.erase {}).tree.text = "/* a */ foo()\n" :=
  SyntaxTree.exists_checked (by decide +kernel)

end Untype
