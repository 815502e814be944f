-- What is printed is what the leaves spell: no change is hidden under a node
-- that is copied from the source.
import Untype.Convert
import Untype.Proofs.Erasure.Actions
import Untype.Proofs.Lossless.Files

namespace Untype.Erasure

open Untype.Node

variable {nodes : List Node} {i j : Nat} {node : Node} {source : String} {w : Walk}

/-! ## Leaves as text -/

/-- The text of leaves one after another, each with the trivia in front of it. -/
def spell (source : String) (leaves : List Node) : String :=
  String.join (leaves.map fun leaf => leaf.leadingTrivia source ++ leafText source leaf)

variable {source : String}

theorem spell_append (leaves others : List Node) :
    spell source (leaves ++ others) = spell source leaves ++ spell source others := by
  simp [spell]

theorem spell_single (leaf : Node) :
    spell source [leaf] = leaf.leadingTrivia source ++ leafText source leaf := by
  simp [spell]

/-- The tree is printed as its leaves spell it. -/
def Faithful (source : String) (node : Node) : Prop :=
  node.print source = spell source node.leaves

theorem printAll_of_faithful (h : ∀ node ∈ nodes, Faithful source node) :
    printAll source nodes = spell source (leavesOf nodes) := by
  induction nodes with
  | nil => rfl
  | cons node nodes ih =>
    simp only [List.forall_mem_cons] at h
    rw [printAll, leavesOf, spell_append, ← ih h.2, ← h.1]

/-! ## Trees of the source -/

theorem leaf_spells {token : Token} (h : Tiles source (leaf token) i j) :
    spell source [leaf token] = Text.slice source token.span.pos token.span.stop := by
  obtain ⟨hread, -, -⟩ : token.Read source ∧ token.span.pos = i ∧ token.span.stop = j := by
    simpa only [Tiles] using h
  have hlies := hread.lies
  rw [spell_single]
  simp only [leadingTrivia, leafText, Node.text, Node.span, hread.bare, Option.getD_none]
  exact Text.slice_append hlies.pos hlies.start hlies.stop hlies.pos_le hlies.start_le

mutual

theorem spell_of_tiles : ∀ {node : Node} {i j : Nat}, Tiles source node i j →
    spell source node.leaves = Text.slice source i j
  | leaf token, i, j, h => by
    obtain ⟨rfl, rfl, -⟩ := h.lies
    exact leaf_spells h
  | inserted piece, i, j, h => by simp only [Tiles] at h
  | branch kind span marks children, i, j, h => by
    have hchildren := h.tileAll
    rw [← hchildren.join_slices]
    exact spell_of_tileAll hchildren

theorem spell_of_tileAll : ∀ {nodes : List Node} {i j : Nat},
    TileAll source nodes i j → spell source (leavesOf nodes) =
      String.join (nodes.map fun node => Text.slice source node.span.pos node.span.stop)
  | [], i, j, h => rfl
  | node :: nodes, i, j, h => by
    obtain ⟨k, hnode, hrest⟩ := tileAll_cons.1 h
    obtain ⟨hpos, hstop, -⟩ := hnode.lies
    rw [leavesOf, spell_append, spell_of_tiles hnode, spell_of_tileAll hrest, List.map_cons,
      String.join_cons, hpos, hstop]

end

/-- A tree of the source is copied from it. -/
theorem print_of_tiles (h : Tiles source node i j) : node.print source = Text.slice source i j := by
  obtain ⟨hpos, hstop, -⟩ := h.lies
  cases node with
  | leaf token =>
    obtain ⟨hread, -, -⟩ : token.Read source ∧ token.span.pos = i ∧ token.span.stop = j := by
      simpa only [Tiles] using h
    rw [print, hread.clean, ← hpos, ← hstop]
    rfl
  | inserted piece => simp only [Tiles] at h
  | branch kind span marks children =>
    obtain ⟨-, rfl, -, -⟩ := tiles_branch.1 h
    rw [print, ← hpos, ← hstop]
    rfl

theorem faithful_of_tiles (h : Tiles source node i j) :
    Faithful source node := (print_of_tiles h).trans (spell_of_tiles h).symm

theorem faithful_of_tileAll (h : TileAll source nodes i j) :
    ∀ node ∈ nodes, Faithful source node := by
  intro node hnode
  obtain ⟨k, l, htiles⟩ := h.mem hnode
  exact faithful_of_tiles htiles

/-! ## Leaves that are kept -/

theorem faithful_inserted (piece : Inserted) : Faithful source (.inserted piece) := by
  simp only [Faithful, leaves, spell_single]
  rfl

theorem faithful_redressed (hnode : node.kind? = none) (trivia : String) :
    Faithful source (node.setTrivia trivia).markDirty := by
  cases node with
  | leaf token =>
    simp only [setTrivia, markDirty, Faithful, leaves, spell_single]
    rfl
  | inserted piece => exact faithful_inserted _
  | branch kind span marks children => cases hnode

/-- The trivia that a leaf is kept with. -/
def keptTrivia (source : String) (w : Walk) (node : Node) : String :=
  let first := (leafText source node).toList.head?
  if w.pending.isEmpty && !needsSemicolon w first then node.leadingTrivia source
  else settledTrivia w (node.leadingTrivia source) (node.isToken .endOfFile) first

/-- What comes first in front of a leaf that starts so and that this trivia waits for: a semicolon,
or a space to keep it from what stands before. -/
def lead (w : Walk) (trivia : String) (first : Option Char) : String :=
  if needsSemicolon w first then ";"
  else if !w.pending.isEmpty && trivia.isEmpty &&
    w.lastChar.any (fun previous => first.any (needsSeparator previous)) then " "
  else ""

theorem lead_mem (w : Walk) (trivia : String) (first : Option Char) :
    lead w trivia first ∈ ["", " ", ";"] := by
  unfold lead
  repeat' split
  all_goals simp

theorem lead_eq_semicolon (w : Walk) (trivia : String) (first : Option Char) :
    lead w trivia first = ";" ↔ needsSemicolon w first := by
  unfold lead
  repeat' split
  all_goals simp_all

theorem apply_of_isEmpty {pending : Pending} (h : pending.isEmpty) (own : String) (atEnd : Bool) :
    pending.apply own atEnd = own := by
  simp only [Pending.isEmpty, Bool.and_eq_true, Option.isNone_iff_eq_none] at h
  simp [Pending.apply, h.1, h.2]

/-- The trivia of a kept leaf is what waited and its own, behind a space or a semicolon at most. -/
theorem keptTrivia_eq (source : String) (w : Walk) (node : Node) :
    keptTrivia source w node =
      lead w (w.pending.apply (node.leadingTrivia source) (node.isToken .endOfFile))
          (leafText source node).toList.head? ++
        w.pending.apply (node.leadingTrivia source) (node.isToken .endOfFile) := by
  unfold keptTrivia settledTrivia lead
  dsimp only
  generalize (leafText source node).toList.head? = first
  cases hempty : w.pending.isEmpty with
  | true => cases needsSemicolon w first <;> simp [apply_of_isEmpty hempty]
  | false =>
    cases needsSemicolon w first with
    | true => simp
    | false =>
      cases w.lastChar <;> cases first
      case some.some previous next =>
        simp only [Bool.false_and, Bool.not_false, Bool.true_and, Option.any_some,
          Bool.false_eq_true, if_false]
        split <;> simp_all
      all_goals simp

/-- The walk after a kept leaf. -/
def Walk.past (w : Walk) (source : String) (node : Node) : Walk :=
  let text := (leafText source node).toList
  { w with
    pending := {}
    lastChar := text.getLast?.or w.lastChar
    removed := w.removed && text.isEmpty
    atStart := w.atStart && text.isEmpty }

theorem visitLeaf_eq (source : String) (w : Walk) (node : Node) :
    visitLeaf source w node =
      if keptTrivia source w node == node.leadingTrivia source then
        ⟨node, node.token?.isNone, w.past source node⟩
      else
        ⟨(node.setTrivia (keptTrivia source w node)).markDirty, true, w.past source node⟩ := rfl

theorem visitLeaf_cases (source : String) (w : Walk) (node : Node) :
    keptTrivia source w node = node.leadingTrivia source ∧
        visitLeaf source w node = ⟨node, node.token?.isNone, w.past source node⟩ ∨
      visitLeaf source w node =
        ⟨(node.setTrivia (keptTrivia source w node)).markDirty, true, w.past source node⟩ := by
  rw [visitLeaf_eq]
  split
  · rename_i hsame
    exact .inl ⟨beq_iff_eq.1 hsame, rfl⟩
  · exact .inr rfl

theorem visitLeaf_faithful (hnode : node.kind? = none) (h : Faithful source node) (w : Walk) :
    Faithful source (visitLeaf source w node).node := by
  rcases visitLeaf_cases source w node with ⟨-, hsame⟩ | hother
  · exact hsame ▸ h
  · exact hother ▸ faithful_redressed hnode _

theorem visitLeaf_unchanged (h : (visitLeaf source w node).changed = false) :
    (visitLeaf source w node).node = node := by
  rcases visitLeaf_cases source w node with ⟨-, hsame⟩ | hother
  · rw [hsame]
  · rw [hother] at h
    cases h

theorem visitPieces_faithful (policy : Policy) (w : Walk) (pieces : List Inserted) :
    ∀ node ∈ (visitPieces source policy w pieces).1, Faithful source node := by
  induction pieces generalizing w with
  | nil => simp [visitPieces]
  | cons piece pieces ih =>
    simp only [visitPieces, List.forall_mem_cons]
    exact ⟨visitLeaf_faithful rfl (faithful_inserted piece) w, ih _⟩

/-! ## Type syntax that stays -/

theorem replaceFirstLeaf_faithful {first : Node} (hfirst : Faithful source first) :
    ∀ {node : Node} {i j : Nat}, Tiles source node i j →
      Faithful source (replaceFirstLeaf first node)
  | leaf token, i, j, h => hfirst
  | inserted piece, i, j, h => hfirst
  | branch kind span marks [], i, j, h => absurd rfl (tiles_branch.1 h).2.2.1
  | branch kind span marks (child :: rest), i, j, h => by
    have hchildren := h.tileAll
    obtain ⟨k, hchild, hrest⟩ := tileAll_cons.1 hchildren
    rw [replaceFirstLeaf, replaceFirstLeafOf, Faithful, leaves, print, if_pos rfl]
    refine printAll_of_faithful (List.forall_mem_cons.2 ⟨?_, faithful_of_tileAll hrest⟩)
    exact replaceFirstLeaf_faithful hfirst hchild

theorem visitTypeSyntax_faithful (h : Tiles source node i j) (w : Walk) :
    Faithful source (visitTypeSyntax source w node).node := by
  obtain ⟨token, k, hfirst, -, htoken⟩ := firstLeaf_of_tiles h
  unfold visitTypeSyntax
  dsimp only
  split
  · refine replaceFirstLeaf_faithful ?_ h
    rw [hfirst]
    exact visitLeaf_faithful rfl (faithful_of_tiles htoken) _
  · exact faithful_of_tiles h

theorem visitTypeSyntax_unchanged (h : (visitTypeSyntax source w node).changed = false) :
    (visitTypeSyntax source w node).node = node := by
  unfold visitTypeSyntax at h ⊢
  dsimp only at h ⊢
  rw [h]
  rfl

/-! ## Trees -/

variable {s : Setting}

/-- Where some child does not simply stay, the parent is told. -/
theorem visitAll_changed {policy : Policy} {children : List Node} {lastKept : Option Label}
    {actions : List Action} {index : Nat} {action : Action} (hindex : index < children.length)
    (haction : actions[index]? = some action) (halters : action.alters) :
    (visitAll s policy lastKept w actions children).changed := by
  induction children generalizing lastKept w actions index with
  | nil => cases hindex
  | cons child rest ih =>
    obtain ⟨first, others, rfl⟩ : ∃ first others, actions = first :: others := by
      cases actions with
      | nil => cases haction
      | cons first others => exact ⟨first, others, rfl⟩
    cases index with
    | zero =>
      cases haction
      rw [visitAll]
      cases action with
      | remove removal | replace piece => rfl
      | keep task before after =>
        simp only [Action.alters, Bool.or_eq_true] at halters
        rcases halters with hbefore | hafter
        · simp [hbefore]
        · simp [hafter]
    | succ index =>
      have hrest : ∀ lastKept w, (visitAll s policy lastKept w others rest).changed :=
        fun lastKept w => ih (by simpa using hindex) (by simpa using haction)
      rw [visitAll]
      cases first with
      | remove removal | replace piece => rfl
      | keep task before after => simp [hrest]

theorem dress_of_ne_trivia {task : Task} (h : ∀ trivia, task ≠ .trivia trivia) (node : Node) :
    task.dress node = node := by
  cases task with
  | trivia trivia => exact absurd rfl (h trivia)
  | _ => rfl

theorem dress_faithful (hnode : node.kind? = none) (h : Faithful source node) (task : Task) :
    Faithful source (task.dress node) := by
  cases task with
  | trivia trivia => exact faithful_redressed hnode trivia
  | _ => exact h

theorem dress_kind? (task : Task) (node : Node) : (task.dress node).kind? = node.kind? := by
  cases task <;> cases node <;> rfl

theorem actions_suit {scope : Scope} (h : TileAll s.source scope.children i j) :
    List.Forall₂ (Action.Suits scope) scope.children (actionsOf s scope) := by
  refine actions_forall₂ (fun index child hchild => (verdict_fate s scope index child).suits
    fun hblock => ?_) fun child _ => Action.suits_of_isOrdinary rfl child
  obtain ⟨k, l, htiles⟩ := h.mem (List.mem_of_getElem? hchild)
  exact (htiles.children hblock).1

theorem visitAll_changed_of_fields (s : Setting) (scope : Scope) {plan : FieldPlan}
    (htask : scope.task = .fields plan) (hassignments : plan.assignments ≠ [])
    (hposition : plan.position < scope.children.length) (policy : Policy)
    (lastKept : Option Label) (w : Walk) :
    (visitAll s policy lastKept w (actionsOf s scope) scope.children).changed =
      true := by
  obtain ⟨action, haction, hcases⟩ := actions_getElem? (List.getElem?_eq_getElem hposition)
  refine visitAll_changed hposition haction ?_
  rcases hcases with rfl | ⟨-, rfl⟩
  · exact verdict_alters htask hassignments _
  · rfl

mutual

/-- A tree is printed as its leaves spell it after the walk. Where nothing changed, they spell
what they did before. -/
theorem visit_faithful (s : Setting) : ∀ (node : Node) {i j : Nat} (task : Task) (w : Walk),
    Tiles s.source node i j → task.Fits node →
      Faithful s.source (visit s task w node).node ∧
        ((visit s task w node).changed = false → (∀ trivia, task ≠ .trivia trivia) →
          spell s.source (visit s task w node).node.leaves = spell s.source node.leaves)
  | leaf token, i, j, task, w, h, _ => by
    have hdress := dress_faithful rfl (faithful_of_tiles h) task
    refine ⟨visitLeaf_faithful (dress_kind? task _) hdress w, fun hunchanged htask => ?_⟩
    change spell _ (visitLeaf s.source w (task.dress (leaf token))).node.leaves = _
    rw [visitLeaf_unchanged hunchanged, dress_of_ne_trivia htask]
  | inserted piece, i, j, task, w, h, _ => by simp only [Tiles] at h
  | branch kind span marks children, i, j, task, w, h, htask => by
    rw [visit]
    split
    · exact ⟨visitTypeSyntax_faithful h w, fun hunchanged _ => by
        rw [visitTypeSyntax_unchanged hunchanged]⟩
    · obtain ⟨hspan, rfl, hne, hchildren⟩ := tiles_branch.1 h
      have hsource := (print_of_tiles h).trans (spell_of_tiles h).symm
      dsimp only
      generalize ({ w with findings := _ } : Walk) = told
      obtain ⟨hall, hsame⟩ := visitAll_faithful s children ⟨kind, span, task, children⟩
        (policy kind) none told _ hchildren (actions_suit hchildren)
      cases hchanged :
        (visitAll s (policy kind) none told (actionsOf s ⟨kind, span, task, children⟩)
          children).changed with
      | true => exact ⟨printAll_of_faithful hall, nofun⟩
      | false =>
        have hplain : ∀ plan, task ≠ .fields plan := by
          rintro plan rfl
          obtain ⟨hassignments, hposition⟩ := htask plan rfl
          have htrue := visitAll_changed_of_fields s ⟨kind, span, .fields plan, children⟩ rfl
            hassignments hposition (policy kind) none told
          rw [hchanged] at htrue
          cases htrue
        exact ⟨hsource.trans (hsame hchanged hplain).symm, fun _ _ => hsame hchanged hplain⟩

theorem visitAll_faithful (s : Setting) : ∀ (children : List Node) {i j : Nat} (scope : Scope)
    (policy : Policy) (lastKept : Option Label) (w : Walk) (actions : List Action),
    TileAll s.source children i j → List.Forall₂ (Action.Suits scope) children actions →
      (∀ node ∈ (visitAll s policy lastKept w actions children).nodes, Faithful s.source node) ∧
        ((visitAll s policy lastKept w actions children).changed = false →
          (∀ plan, scope.task ≠ .fields plan) →
          spell s.source (leavesOf (visitAll s policy lastKept w actions children).nodes) =
            spell s.source (leavesOf children))
  | [], i, j, scope, policy, lastKept, w, actions, h, _ => by
    simp [visitAll]
  | child :: rest, i, j, scope, policy, lastKept, w, actions, h, hactions => by
    obtain ⟨k, hchild, hrest⟩ := tileAll_cons.1 h
    obtain ⟨action, others, hsuits, hothers, rfl⟩ := List.forall₂_cons_left_iff.1 hactions
    have hmore := fun lastKept w =>
      visitAll_faithful s rest scope policy lastKept w others hrest hothers
    rw [visitAll]
    cases action with
    | remove removal => exact ⟨(hmore _ _).1, nofun⟩
    | replace piece =>
      refine ⟨fun node hnode => ?_, nofun⟩
      rcases List.mem_append.1 hnode with hnode | hnode
      · exact visitPieces_faithful policy _ [piece] node hnode
      · exact (hmore _ _).1 node hnode
    | keep task before after =>
      obtain ⟨hfits, htrivia⟩ := hsuits task before after rfl
      have hvisit := fun w => visit_faithful s child task w hchild hfits
      constructor
      · intro node hnode
        simp only [List.headD_cons, List.tail_cons, List.mem_append, List.mem_cons] at hnode
        rcases hnode with (hnode | rfl | hnode) | hnode
        · exact visitPieces_faithful policy _ before node hnode
        · exact (hvisit _).1
        · exact visitPieces_faithful policy _ after node hnode
        · exact (hmore _ _).1 node hnode
      · intro hunchanged htask
        simp only [List.headD_cons, List.tail_cons, Bool.or_eq_false_iff, Bool.not_eq_false',
          List.isEmpty_iff] at hunchanged
        obtain ⟨⟨⟨hkept, rfl⟩, rfl⟩, hothers⟩ := hunchanged
        have hplain : ∀ trivia, task ≠ .trivia trivia := by
          intro trivia heq
          obtain ⟨plan, hplan⟩ := htrivia trivia heq
          exact htask plan hplan
        simp only [List.headD_cons, List.tail_cons, visitPieces, List.nil_append,
          List.cons_append, leavesOf, spell_append] at hkept hothers ⊢
        rw [(hvisit _).2 hkept hplain, (hmore _ _).2 hothers htask]

end

end Untype.Erasure

namespace Untype

theorem SyntaxTree.text_erase {tree : SyntaxTree} {i j : Nat}
    (h : tree.root.Tiles tree.source i j) (options : Erasure.Options) :
    (tree.erase options).tree.text =
      Erasure.spell tree.source (tree.erase options).tree.root.leaves :=
  (Erasure.visit_faithful (.ofTree options tree.source tree.root) tree.root .none {} h
    (Erasure.Task.fits_of_isOrdinary rfl _)).1

/-- However the types of a file are erased, the text is what the leaves of the new tree spell:
what is inserted, else the source, each leaf after its new trivia or that of the source. -/
theorem SyntaxTree.erase_text_eq_spell {variant : Variant} {file text : String} {tree : SyntaxTree}
    (h : SyntaxTree.parseAs variant file text = .ok tree) (options : Erasure.Options) :
    (tree.erase options).tree.text = Erasure.spell text (tree.erase options).tree.root.leaves := by
  obtain ⟨rfl, htiles, -⟩ := SyntaxTree.parseAs_tiles h
  exact SyntaxTree.text_erase htiles options

/-- Fields of a constructor, whose closing brace gets trivia far from any removal. -/
theorem SyntaxTree.erase_text_eq_spell_fields :
    ∃ tree, SyntaxTree.parseAs .standard "a.ts"
        "class A \x7b constructor(private x: T /* y */) \x7b\x7d \x7d" = .ok tree ∧
      (tree.erase {}).tree.text =
        Erasure.spell "class A \x7b constructor(private x: T /* y */) \x7b\x7d \x7d"
          (tree.erase {}).tree.root.leaves :=
  SyntaxTree.exists_parsed (by decide +kernel) fun _ hparse =>
    SyntaxTree.erase_text_eq_spell hparse {}

end Untype
