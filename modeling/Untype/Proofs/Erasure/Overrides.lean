-- Trivia that the erasure puts in the place of other trivia is trivia: white
-- space and comments that end before the next token.
import Untype.Proofs.Anatomy.Ends
import Untype.Proofs.Erasure.Visits
import Untype.Proofs.Trivia.Gaps

namespace Untype

open Untype.Node

/-- The trivia that a leaf has in the place of what the source has. -/
def Node.override? : Node → Option String
  | leaf token => token.trivia
  | inserted piece => piece.trivia
  | branch _ _ _ _ => none

namespace Erasure

open Untype.Text (IsClosed IsWhole Phase isBlankOrLineBreak isClosed_of_blank)

/-! ## Trivia of the source -/

/-- The trivia can be cut wherever the erasure cuts it: its last newline lies in no block
comment, and neither does that of what stays of it in front of a removed unit. It has no line
breaks but newlines, so that its comments end where they are thought to end. -/
def isTidy (trivia : String) : Bool :=
  !trivia.toList.any Text.isSeparator && !cutsComment trivia && !cutsComment (unitGap trivia)

/-- Trivia that a removed token can leave behind. -/
structure IsTame (trivia : String) : Prop where
  closed : IsClosed trivia.toList
  tidy : isTidy trivia

/-- The indentation at the end of trivia is what a cut at its last newline leaves. -/
theorem trailingIndent?_eq (trivia : String) :
    Text.trailingIndent? trivia = (splitAtLastNewline? trivia).map (·.2) := by
  unfold Text.trailingIndent? splitAtLastNewline?
  dsimp only
  cases hline : trivia.toList.reverse.dropWhile fun c => !Text.isNewline c with
  | nil =>
    have hall := List.all_takeWhile (p := fun c => !Text.isNewline c) (l := trivia.toList.reverse)
    rw [← List.append_nil (List.takeWhile _ _), ← hline, List.takeWhile_append_dropWhile] at hall
    rw [if_neg]
    · rfl
    · simpa using hall
  | cons c line =>
    rw [if_pos]
    · rfl
    · have hc := List.head_dropWhile_not (fun c => !Text.isNewline c)
        (l := trivia.toList.reverse) (by simp [hline])
      have hmem : c ∈ trivia.toList.reverse :=
        (List.dropWhile_sublist _).subset (hline ▸ List.mem_cons_self)
      simp only [hline, List.head_cons] at hc
      exact List.any_eq_true.2 ⟨c, hmem, by simpa using hc⟩

namespace IsTame

variable {trivia : String}

theorem isPlain (h : IsTame trivia) : IsPlain trivia := by
  have htidy := h.tidy
  simp only [isTidy, Bool.and_eq_true, Bool.not_eq_true', List.any_eq_false] at htidy
  intro c hc
  simpa using htidy.1.1 c hc

theorem isGap (h : IsTame trivia) : IsGap trivia := by
  have htidy := h.tidy
  simp only [isTidy, Bool.and_eq_true, Bool.not_eq_true'] at htidy
  exact ⟨h.closed, htidy.1.2⟩

theorem isGap_unitGap (h : IsTame trivia) : IsGap (unitGap trivia) := by
  have htidy := h.tidy
  simp only [isTidy, Bool.and_eq_true, Bool.not_eq_true'] at htidy
  exact ⟨isClosed_unitGap h.closed h.isPlain, htidy.2⟩

theorem trailingIndent (h : IsTame trivia) {indent : String}
    (hindent : Text.trailingIndent? trivia = some indent) : IsClosed indent.toList := by
  rw [trailingIndent?_eq] at hindent
  obtain ⟨⟨before, after⟩, hsplit, rfl⟩ := Option.map_eq_some_iff.1 hindent
  exact (isClosed_of_split h.closed h.isGap.cut hsplit).2

end IsTame

end Erasure

/-! ## Trees of the source -/

/-- The trivia of a token of the source is trivia, and closed unless the token is the end. -/
theorem Token.Read.trivia {text : String} {token : Token} (h : token.Read text)
    (hbang : text.toList.take 2 ≠ ['#', '!']) :
    Text.IsWhole ((leaf token).leadingTrivia text).toList ∧
      (token.kind ≠ .endOfFile → Text.IsClosed ((leaf token).leadingTrivia text).toList) := by
  obtain ⟨s, hreached, hkind, hspan⟩ := h.reading
  obtain ⟨front, hsplit, hoffset, hwhole, hclosed⟩ := hreached.skips hbang
  obtain ⟨before, hbefore, hfull⟩ := hreached.fits.full
  have htrivia : (leaf token).leadingTrivia text = .ofList front := by
    have htext : text.toList = before ++ front ++ s.start.rest := by
      rw [List.append_assoc, ← hsplit]
      exact hbefore
    simp only [leadingTrivia, h.bare, Option.getD_none, hspan]
    rw [hoffset, hfull, Cursor.ofText, Nat.zero_add, ← Text.byteLength_append]
    exact Text.slice_eq_ofList htext
  rw [htrivia, String.toList_ofList]
  refine ⟨hwhole, fun hend => hclosed ?_⟩
  rcases hkind with hkind | ⟨-, hword⟩
  · rwa [← hkind]
  · intro h
    rw [h] at hword
    cases hword

namespace Node

/-- The tree is one of the source, and all its trivia can be cut. -/
structure IsTame (source : String) (node : Node) : Prop where
  tiles : ∃ i j, Tiles source node i j
  trivia : ∀ part ∈ node.leaves, Erasure.IsTame (part.leadingTrivia source)

variable {source : String} {node : Node}

namespace IsTame

theorem child {kind : NodeKind} {place : Span} {marks : Marks} {children : List Node}
    (h : (branch kind place marks children).IsTame source) :
    ∀ child ∈ children, child.IsTame source := by
  intro child hchild
  obtain ⟨i, j, htiles⟩ := h.tiles
  refine ⟨htiles.tileAll.mem hchild, fun part hpart => h.trivia part ?_⟩
  rw [leaves]
  exact mem_leavesOf.2 ⟨child, hchild, hpart⟩

theorem firstLeaf (h : node.IsTame source) :
    Erasure.IsTame (node.firstLeaf.leadingTrivia source) := by
  obtain ⟨i, j, htiles⟩ := h.tiles
  exact h.trivia _ (htiles.firstLeaf_mem)

/-- The trivia of a tree is that of its first leaf. -/
theorem leadingTrivia (h : node.IsTame source) : Erasure.IsTame (node.leadingTrivia source) := by
  have hfirst := h.firstLeaf
  obtain ⟨i, j, htiles⟩ := h.tiles
  cases node with
  | branch kind place marks children =>
    obtain ⟨token, k, heq, hstart, htoken⟩ := firstLeaf_of_tiles htiles
    obtain ⟨hread, hpos, -⟩ : token.Read source ∧ token.span.pos = i ∧ token.span.stop = k := by
      simpa only [Tiles] using htoken
    rw [heq, Node.leadingTrivia, hread.bare, Option.getD_none, hstart, hpos] at hfirst
    have hbranch : place.pos = i := htiles.lies.1
    rwa [Node.leadingTrivia, hbranch]
  | _ => exact hfirst

end IsTame

end Node

/-! ## What is inserted -/

/-- A token can follow the trivia of the piece. -/
def Inserted.IsSound (piece : Inserted) : Prop :=
  ∀ trivia, piece.trivia = some trivia → Text.IsClosed trivia.toList

namespace Erasure

open Untype.Text (IsClosed IsWhole Phase isBlankOrLineBreak isClosed_of_blank)

/-- A token can follow all trivia that the plan adds. -/
structure FieldPlan.IsSound (plan : FieldPlan) : Prop where
  assignments : ∀ piece ∈ plan.assignments, piece.IsSound
  closing : ∀ trivia, plan.closing = some trivia → IsClosed trivia.toList

/-- A token can follow all trivia that the task adds. -/
def Task.IsSound : Task → Prop
  | .fields plan => plan.IsSound
  | .trivia text => IsClosed text.toList
  | _ => True

/-- A token can follow all trivia that the action adds. -/
def Action.IsSound : Action → Prop
  | .keep task before after =>
    task.IsSound ∧ (∀ piece ∈ before, piece.IsSound) ∧ ∀ piece ∈ after, piece.IsSound
  | .replace piece => piece.IsSound
  | .remove _ => True

section Actions

variable {s : Setting} {scope : Scope} {index : Nat} {child : Node}
variable {action : Action} {piece : Inserted} {pieces : List Inserted} {indent : String}

theorem Action.isSound_keep {task : Task} (h : task.IsSound) : (Action.keep task [] []).IsSound :=
  ⟨h, nofun, nofun⟩

theorem isClosed_lineIndent (text : String) (pos : Nat) :
    IsClosed (Text.lineIndent text pos).toList := by
  apply isClosed_of_blank
  intro c hc
  rw [Text.lineIndent, String.toList_ofList] at hc
  have hblank := List.all_eq_true.1 List.all_takeWhile c hc
  rcases (by simpa using hblank : c = ' ' ∨ c = '\t') with rfl | rfl <;> decide

theorem isClosed_unitFrom (smallest : Option Nat) (previous : Nat) (lines : List (List Char)) :
    IsClosed (Text.unitFrom smallest previous lines).toList := by
  have hspaces : ∀ width, IsClosed (Text.spaces width).toList := by
    intro width
    apply isClosed_of_blank
    intro c hc
    rw [Text.spaces, String.toList_ofList] at hc
    rw [List.eq_of_mem_replicate hc]
    decide
  fun_induction Text.unitFrom smallest previous lines with
  | case1 | case2 | case3 => exact hspaces _
  | case5 => rfl
  | case4 | case6 | case7 => assumption

theorem isClosed_newline (h : IsClosed indent.toList) :
    IsClosed ("\n" ++ indent).toList := by
  rw [String.toList_append]
  exact IsClosed.append rfl h

theorem exportAssignment_isSound (owner : String) (statement : Node) :
    ∀ piece ∈ exportAssignment s owner statement, piece.IsSound := by
  unfold exportAssignment
  split
  · rintro piece hpiece trivia htrivia
    cases List.mem_singleton.1 hpiece
    cases htrivia
    exact isClosed_newline (isClosed_lineIndent _ _)
  · nofun

/-- The assignments of fields are indented as the body is, and so is what closes it. -/
theorem fieldPlan_isSound {source unit : String} (hunit : IsClosed unit.toList) (start : Nat)
    (names : List String) {body : Node} (hbody : body.IsTame source) :
    (fieldPlan source unit start names body).IsSound := by
  have hbase := isClosed_lineIndent source start
  constructor
  · intro piece hpiece trivia htrivia
    simp only [fieldPlan, List.mem_map] at hpiece
    obtain ⟨name, -, rfl⟩ := hpiece
    cases htrivia
    apply isClosed_newline
    cases hindent : (body.children.filter fun child => child.token?.isNone).head?.bind fun first =>
        Text.trailingIndent? (first.firstLeaf.leadingTrivia source) with
    | none =>
      rw [Option.getD_none, String.toList_append]
      exact hbase.append hunit
    | some indent =>
      obtain ⟨first, hfirst, htrailing⟩ := Option.bind_eq_some_iff.1 hindent
      have hmem := List.mem_of_mem_filter (List.mem_of_mem_head? hfirst)
      cases body with
      | branch kind place marks children =>
        exact (hbody.child first hmem).firstLeaf.trailingIndent htrailing
      | _ => cases hmem
  · intro trivia htrivia
    simp only [fieldPlan, Option.bind_eq_some_iff] at htrivia
    obtain ⟨last, -, hlast⟩ := htrivia
    split at hlast
    · cases hlast
      exact isClosed_newline hbase
    · cases hlast

theorem childTask_isSound (hunit : IsClosed s.unit.toList) (htask : scope.task.IsSound)
    (hchild : child.IsTame s.source) : (childTask s scope index child).IsSound := by
  unfold childTask
  dsimp only
  split
  · split
    · exact fieldPlan_isSound hunit _ _ hchild
    · trivial
  iterate 5
    split <;> trivial
  · split
    iterate 4
      split <;> trivial
    · rename_i plan hplan
      rw [hplan] at htask
      split
      · split
        · exact htask.closing _ ‹_›
        · trivial
      · trivial
    · trivial

theorem Action.IsSound.followedBy (h : action.IsSound)
    (hpieces : ∀ piece ∈ pieces, piece.IsSound) : (action.followedBy pieces).IsSound := by
  cases action with
  | keep task before after =>
    obtain ⟨htask, hbefore, hafter⟩ := h
    exact ⟨htask, hbefore, List.forall_mem_append.2 ⟨hafter, hpieces⟩⟩
  | _ => exact h

theorem StatementFate.isSound (h : StatementFate s scope child action)
    (hchild : child.IsTame s.source) : action.IsSound := by
  cases h with
  | remove => trivial
  | enum =>
    rintro trivia ⟨rfl⟩
    exact hchild.firstLeaf.closed
  | assigned _ hafter =>
    exact ⟨trivial, nofun, fun piece hpiece => exportAssignment_isSound _ _ piece (hafter hpiece)⟩
  | _ => exact Action.isSound_keep trivial

theorem isSound_of_blank (h : piece.trivia.all (· == " ")) : piece.IsSound := by
  intro trivia htrivia
  obtain rfl : trivia = " " := by simpa [htrivia] using h
  rfl

/-- A token can follow all trivia that is added for a child whose own trivia can be cut. -/
theorem Fate.isSound (h : Fate s scope index child action)
    (hunit : IsClosed s.unit.toList) (htask : scope.task.IsSound) (hchild : child.IsTame s.source) :
    action.IsSound := by
  induction h with
  | remove => trivial
  | keep => exact Action.isSound_keep (childTask_isSound hunit htask hchild)
  | statement h => exact h.isSound hchild
  | operand => exact Action.isSound_keep trivial
  | between hpieces =>
    rw [List.forall_mem_append] at hpieces
    exact ⟨trivial, fun piece hpiece => isSound_of_blank (hpieces.1 piece hpiece),
      fun piece hpiece => isSound_of_blank (hpieces.2 piece hpiece)⟩
  | body name _ hafter =>
    exact ⟨trivial, nofun, fun piece hpiece => isSound_of_blank (by simp [hafter piece hpiece])⟩
  | replace text =>
    rintro trivia ⟨rfl⟩
    exact hchild.leadingTrivia.closed
  | fields hplan _ ih =>
    rw [hplan] at htask
    exact ih.followedBy htask.assignments

end Actions

/-! ## Steps -/

/-- A leaf whose trivia a token can follow, or the end of the file with the trivia of the
source. -/
def IsSoundLeaf (source : String) (node : Node) : Prop :=
  IsClosed (node.leadingTrivia source).toList ∨
    node.isToken .endOfFile ∧ node.override? = none ∧
      IsWhole (Text.slice source node.span.pos node.span.start).toList

namespace Step

/-- What the step puts in the place of trivia, or passes on, is trivia. -/
def IsSound (source : String) : Step → Prop
  | keep node => node.kind? = none ∧ IsSoundLeaf source node
  | stay node => node.IsTame source
  | pass child _ _ => child.IsTame source
  | _ => True

end Step

section Steps

variable {s : Setting}
variable {child : Node}

theorem isSoundLeaf_inserted {piece : Inserted} (h : piece.IsSound) (source : String) :
    IsSoundLeaf source (.inserted piece) := by
  left
  rw [leadingTrivia]
  cases htrivia : piece.trivia with
  | none => exact .nil
  | some trivia => exact h trivia htrivia

/-- A tree of the source whose trivia can be cut, the end of the file, or all of it. -/
inductive IsKeepable (source : String) : Task → Node → Prop where
  | tame {task : Task} {node : Node} : task.IsSound → node.IsTame source →
      IsKeepable source task node
  | endOfFile {token : Token} : token.kind = .endOfFile → IsSoundLeaf source (leaf token) →
    IsKeepable source .none (leaf token)
  | file {statements : List Node} {token : Token} {span : Span} {marks : Marks} :
    (∀ node ∈ statements, node.IsTame source) → token.kind = .endOfFile →
    IsSoundLeaf source (leaf token) →
    IsKeepable source .none (branch .sourceFile span marks (statements ++ [leaf token]))

theorem allows_of_isSound {source : String} {action : Action} (h : action.IsSound)
    (hchild : child.IsTame source) :
    action.Allows (IsKeepable source) (Step.IsSound source) child := by
  cases action with
  | remove removal => exact fun _ => hchild
  | replace piece => exact ⟨rfl, isSoundLeaf_inserted h source⟩
  | keep task before after =>
    refine ⟨.tame h.1 hchild, fun piece hpiece => ⟨rfl, isSoundLeaf_inserted ?_ source⟩⟩
    exact List.forall_mem_append.2 h.2 piece hpiece

/-- All steps over a tree are sound. -/
theorem carries_isSound (hunit : IsClosed s.unit.toList) :
    Carries s (IsKeepable s.source) (Step.IsSound s.source) := by
  refine ⟨fun _ => trivial, fun _ => trivial, ?_, ?_, ?_⟩
  · rintro task node (⟨htask, htame⟩ | ⟨hend, hleaf⟩ | _) hnone
    · cases node with
      | leaf token =>
        refine ⟨dress_kind? task _, ?_⟩
        cases task with
        | trivia text => exact .inl htask
        | _ => exact .inl htame.leadingTrivia.closed
      | inserted piece =>
        obtain ⟨⟨i, j, htiles⟩, -⟩ := htame
        simp only [Tiles] at htiles
      | branch => cases hnone
    · exact ⟨rfl, hleaf⟩
    · cases hnone
  · rintro task kind span marks children hnode hpolicy
    cases hnode with
    | tame _ htame => exact htame
    | file => cases hpolicy
  · intro task node child action hnode hmeets
    obtain ⟨kind, span, marks, children, index, rfl, hverdict⟩ := hmeets.verdict
    obtain ⟨_, _, _, _, _, heq, hfate⟩ := hmeets.fate
    obtain ⟨_, _, _, _, _, heq', -, hchild, -⟩ := hmeets
    cases heq
    cases heq'
    have hchild := List.mem_of_getElem? hchild
    cases hnode with
    | tame htask htame =>
      have hchild := htame.child child hchild
      exact allows_of_isSound (hfate.isSound hunit htask hchild) hchild
    | file hstatements hend hleaf =>
      rcases List.mem_append.1 hchild with hchild | hchild
      · have hchild := hstatements child hchild
        exact allows_of_isSound (hfate.isSound hunit trivial hchild) hchild
      · obtain rfl := List.mem_singleton.1 hchild
        rw [verdict_endOfFile hend] at hverdict
        obtain rfl | ⟨hcomma, -⟩ := hverdict
        · exact ⟨.endOfFile hend hleaf, nofun⟩
        · simp [isToken, token?, hend] at hcomma

end Steps

/-! ## Leaves of the new tree -/

/-- The new trivia of a leaf is trivia, apart from a semicolon in front. It ends as that of the
source does, if the leaf is the end of the file, else a token can follow. -/
def IsSettled (source : String) (node : Node) : Prop :=
  ∀ trivia, node.override? = some trivia → ∃ rest, (trivia = rest ∨ trivia = ";" ++ rest) ∧
    (IsClosed rest.toList ∨
      node.isToken .endOfFile ∧
        IsWhole (Text.slice source node.span.pos node.span.start).toList ∧
        Phase.between.run rest.toList =
          Phase.between.run (Text.slice source node.span.pos node.span.start).toList)

section Leaves

variable {source : String} {w : Walk} {node : Node}

theorem override?_redressed (hnode : node.kind? = none) (trivia : String) :
    (node.setTrivia trivia).markDirty.override? = some trivia := by
  cases node with
  | branch kind place marks children => cases hnode
  | _ => rfl

@[simp]
theorem isToken_redressed (kind : TokenKind) (trivia : String) :
    (node.setTrivia trivia).markDirty.isToken kind = node.isToken kind := by
  cases node <;> rfl

theorem leadingTrivia_of_override? {trivia : String} (h : node.override? = some trivia) :
    node.leadingTrivia source = trivia := by
  cases node with
  | branch kind place marks children => cases h
  | leaf token | inserted piece => exact (congrArg (Option.getD · _) h).trans rfl

theorem leadingTrivia_of_bare {kind : TokenKind} (htoken : node.isToken kind)
    (h : node.override? = none) :
    node.leadingTrivia source = Text.slice source node.span.pos node.span.start := by
  cases node with
  | leaf token => exact (congrArg (Option.getD · _) h).trans rfl
  | _ => cases htoken

theorem keptTrivia_cases (source : String) (w : Walk) (node : Node) :
    ∃ rest, (keptTrivia source w node = rest ∨ keptTrivia source w node = ";" ++ rest) ∧
      (rest = w.pending.apply (node.leadingTrivia source) (node.isToken .endOfFile) ∨
        rest = " ") := by
  rw [keptTrivia_eq]
  unfold lead
  split
  · exact ⟨_, .inr rfl, .inl rfl⟩
  · split
    · rename_i hspace
      simp only [Bool.and_eq_true, String.isEmpty_iff] at hspace
      exact ⟨" ", .inl (by rw [hspace.1.2]; rfl), .inr rfl⟩
    · exact ⟨_, .inl String.empty_append, .inl rfl⟩

/-- A sound leaf that is kept gets trivia. -/
theorem visitLeaf_isSettled (hw : w.pending.IsSound) (hnode : node.kind? = none)
    (h : IsSoundLeaf source node) : IsSettled source (visitLeaf source w node).node := by
  rcases visitLeaf_cases source w node with ⟨-, hsame⟩ | hother
  · intro trivia htrivia
    rw [hsame] at htrivia ⊢
    rcases h with hclosed | ⟨-, hbare, -⟩
    · rw [leadingTrivia_of_override? htrivia] at hclosed
      exact ⟨trivia, .inl rfl, .inl hclosed⟩
    · cases hbare.symm.trans htrivia
  · intro trivia htrivia
    rw [hother] at htrivia ⊢
    rw [override?_redressed hnode] at htrivia
    cases htrivia
    obtain ⟨rest, hkept, hrest⟩ := keptTrivia_cases source w node
    refine ⟨rest, hkept, ?_⟩
    rw [isToken_redressed, span_markDirty, span_setTrivia]
    have hown : node.isToken .endOfFile = false → IsClosed (node.leadingTrivia source).toList := by
      intro hend
      rcases h with hclosed | ⟨hend', -⟩
      · exact hclosed
      · cases hend.symm.trans hend'
    have hrun : rest = " " ∨ Phase.between.run rest.toList =
        Phase.between.run (node.leadingTrivia source).toList := by
      rcases hrest with rfl | rfl
      · exact .inr (hw.run_apply hown)
      · exact .inl rfl
    rcases hrun with rfl | hrun
    · exact .inl rfl
    · rcases h with hclosed | ⟨hend, hbare, hwhole⟩
      · exact .inl (hrun.trans hclosed)
      · rw [leadingTrivia_of_bare hend hbare] at hrun
        exact .inr ⟨hend, hwhole, hrun⟩

theorem visitTypeSyntax_isSettled (hw : w.pending.IsSound) (h : node.IsTame source) :
    ∀ part ∈ (visitTypeSyntax source w node).node.leaves, IsSettled source part := by
  obtain ⟨i, j, htiles⟩ := h.tiles
  obtain ⟨token, k, hfirst, -⟩ := firstLeaf_of_tiles htiles
  rw [leaves_visitTypeSyntax htiles, List.forall_mem_cons]
  refine ⟨visitLeaf_isSettled hw (by rw [hfirst]; rfl) (.inl h.firstLeaf.closed), ?_⟩
  intro part hpart trivia htrivia
  obtain ⟨token, rfl, hread⟩ := htiles.mem_leaves part (List.mem_of_mem_tail hpart)
  cases hread.bare.symm.trans htrivia

theorem skipAt_isSound (hw : w.pending.IsSound) {child : Node} (h : child.IsTame source)
    (removal : Removal) (first : Bool) : (w.skipAt source child removal first).pending.IsSound := by
  unfold Walk.skipAt
  dsimp only
  cases removal with
  | unit => exact hw.collapse h.firstLeaf.isGap_unitGap first
  | modifier => exact hw.collapse h.firstLeaf.isGap first
  | opening => exact hw.collapse h.firstLeaf.isGap true
  | silent => exact hw
  | inside =>
    refine List.foldlRecOn child.leaves _ hw fun pending hpending part hpart => ?_
    have htame := h.trivia part hpart
    exact hpending.inherit (isClosed_insideComments htame.closed htame.isPlain)

theorem Step.IsSound.settles {step : Step} (h : step.IsSound source) (hw : w.pending.IsSound) :
    (∀ part ∈ step.leaves source w, IsSettled source part) ∧
      (step.next source w).pending.IsSound := by
  cases step with
  | tell findings | start atStart => exact ⟨nofun, hw⟩
  | keep node => exact ⟨List.forall_mem_singleton.2 (visitLeaf_isSettled hw h.1 h.2), .empty⟩
  | stay node =>
    refine ⟨visitTypeSyntax_isSettled hw h, ?_⟩
    rw [next, visitTypeSyntax, visitLeaf_walk]
    exact .empty
  | pass child removal first => exact ⟨nofun, skipAt_isSound hw h removal first⟩

theorem leavesAlong_isSettled {steps : List Step} (h : ∀ step ∈ steps, step.IsSound source)
    (hw : w.pending.IsSound) : ∀ part ∈ Step.leavesAlong source w steps, IsSettled source part := by
  induction steps generalizing w with
  | nil => nofun
  | cons step steps ih =>
    rw [List.forall_mem_cons] at h
    obtain ⟨hleaves, hnext⟩ := h.1.settles hw
    exact List.forall_mem_append.2 ⟨hleaves, ih h.2 hnext⟩

end Leaves

/-! ## Whole files -/

/-- What the scanner makes of trivia that is put in front of the node: apart from a semicolon, and
scanned alone, it is skipped up to its end. No comment in it is open unless the source ends in an
open one, and every token but the end of the file can follow it. -/
def IsSkipped (source : String) (node : Node) (trivia : String) : Prop :=
  ∃ rest, (trivia = rest ∨ trivia = ";" ++ rest) ∧
    (Scanner.ofText rest).scan.kind = .endOfFile ∧ (Scanner.ofText rest).scan.trivia = rest ∧
    ((Scanner.ofText rest).scan.findings = [] ∨ node.isToken .endOfFile = true ∧
      (Scanner.ofText (Text.slice source node.span.pos node.span.start)).scan.findings ≠ []) ∧
    (node.isToken .endOfFile = false →
      (Scanner.ofText (rest ++ ";")).scan.kind = .semicolon ∧
        (Scanner.ofText (rest ++ ";")).scan.trivia = rest)

theorem IsSettled.isSkipped {source : String} {node : Node} (h : IsSettled source node)
    {trivia : String} (htrivia : node.override? = some trivia) : IsSkipped source node trivia := by
  obtain ⟨rest, hrest, hclosed | ⟨hend, ⟨phase, hphase, hslash⟩, hrun⟩⟩ := h trivia htrivia
  · obtain ⟨hkind, hall, hfindings⟩ := Scanner.scan_trivia hclosed nofun
    exact ⟨rest, hrest, hkind, hall, .inl (hfindings.2 rfl),
      fun _ => Scanner.scan_semicolon hclosed⟩
  · obtain ⟨hkind, hall, hfindings⟩ := Scanner.scan_trivia (hrun.trans hphase) hslash
    have hsource := (Scanner.scan_trivia hphase hslash).2.2
    refine ⟨rest, hrest, hkind, hall, ?_, fun hnot => by cases hnot.symm.trans hend⟩
    by_cases hopen : (Scanner.ofText rest).scan.findings = []
    · exact .inl hopen
    · exact .inr ⟨hend, fun hnone => hopen (hfindings.2 (hsource.1 hnone))⟩

end Erasure

open Erasure in
/-- Where the trivia of the source can be cut at its newlines, what the erasure puts in its place
is trivia, apart from a semicolon in front. A first line with `#!` is left out: the erasure looks
for comments in it, and the scanner does not. -/
theorem SyntaxTree.erase_overrides {variant : Variant} {file text : String} {tree : SyntaxTree}
    (hparse : SyntaxTree.parseAs variant file text = .ok tree)
    (hbang : text.toList.take 2 ≠ ['#', '!'])
    (htidy : ∀ node ∈ tree.root.leaves, node.isToken .endOfFile = false →
      isTidy (node.leadingTrivia text) = true) (options : Options) :
    ∀ node ∈ (tree.erase options).tree.root.leaves, ∀ trivia, node.override? = some trivia →
      IsSkipped text node trivia := by
  have hend := SyntaxTree.lacksEnd_of_parseAs hparse
  obtain ⟨rfl, htiles, statements, token, hroot, hkind⟩ := SyntaxTree.parseAs_tiles hparse
  have hread := htiles.mem_leaves
  have hleaves : tree.root.leaves = leavesOf statements ++ [leaf token] := by
    rw [hroot, group, leaves, leavesOf_append]
    rfl
  have hstatements : ∀ child ∈ statements, child.IsTame tree.source := by
    intro child hchild
    rw [hroot] at htiles
    refine ⟨htiles.tileAll.mem (List.mem_append_left _ hchild), ?_⟩
    intro part hpart
    have hmem := mem_leavesOf.2 ⟨child, hchild, hpart⟩
    have hnot := hend part (by rwa [hleaves, List.dropLast_concat])
    have hpart : part ∈ tree.root.leaves := by simp [hleaves, hmem]
    obtain ⟨token, rfl, hread⟩ := hread part hpart
    refine ⟨(hread.trivia hbang).2 ?_, htidy _ hpart hnot⟩
    simpa [isToken, token?] using hnot
  have htoken : IsSoundLeaf tree.source (leaf token) := by
    obtain ⟨_, ⟨rfl⟩, hread⟩ := hread (leaf token) (by simp [hleaves])
    refine .inr ⟨by simp [isToken, token?, hkind], hread.bare, ?_⟩
    have hwhole := (hread.trivia hbang).1
    rwa [leadingTrivia, hread.bare] at hwhole
  intro node hnode trivia htrivia
  refine IsSettled.isSkipped ?_ htrivia
  have hunit : Text.IsClosed (Setting.ofTree options tree.source tree.root).unit.toList :=
    isClosed_unitFrom none 0 (Text.linesOf tree.source.toList)
  have hkeepable : IsKeepable tree.source .none tree.root := by
    rw [hroot]
    exact .file hstatements hkind htoken
  rw [leaves_erase] at hnode
  exact leavesAlong_isSettled ((carries_isSound hunit).steps tree.root .none hkeepable) .empty
    node hnode

open Erasure in
/-- A comment in front of a removed interface, one behind it, and a semicolon that is put in. -/
theorem SyntaxTree.erase_overrides_semicolon :
    ∃ tree, SyntaxTree.parseAs .standard "a.ts" "a /* b */\ninterface I {} // c\n(d) // e" =
      .ok tree ∧ ∀ node ∈ (tree.erase {}).tree.root.leaves, ∀ trivia, node.override? = some trivia →
        IsSkipped "a /* b */\ninterface I {} // c\n(d) // e" node trivia :=
  (SyntaxTree.exists_checked (by decide +kernel)).imp fun tree
    (htree : _ ∧ ∀ node ∈ tree.root.leaves, node.isToken .endOfFile = false →
      isTidy (node.leadingTrivia _)) =>
    ⟨htree.1, SyntaxTree.erase_overrides htree.1 (by decide) htree.2 {}⟩

/-- A comment over two lines in front of a removed interface is cut, and the second line goes. -/
theorem SyntaxTree.erase_cuts_comment :
    ∃ tree, SyntaxTree.parseAs .standard "a.ts" "/* a\n   b */ interface I {}\nfoo()" = .ok tree ∧
      (∃ node ∈ (tree.erase {}).tree.root.leaves, node.override? = some "/* a\n") ∧
      (Scanner.ofText "/* a\n").scan.findings ≠ [] ∧
      (Scanner.ofText "/* a\n   b */ interface I {}\nfoo()").scanAll.all (·.findings.isEmpty) ∧
      (tree.erase {}).tree.text = "/* a\nfoo()" :=
  SyntaxTree.exists_checked (by decide +kernel)

end Untype
