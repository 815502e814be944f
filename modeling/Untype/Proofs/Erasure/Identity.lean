-- Code without types comes back as it was, but for parameters that have a
-- bare `this` as their value: those go, and the text gets shorter.
import Mathlib.Data.List.TakeWhile
import Untype.Proofs.Erasure.Steps
import Untype.Proofs.Erasure.Untyped

namespace Untype.Erasure

open Untype.Node

variable {source : String} {s : Setting} {i j : Nat}
variable {w : Walk} {node child : Node} {kind : NodeKind} {children : List Node} {scope : Scope}

/-! ## Walks with nothing to settle -/

/-- Nothing waits for the next token, and nothing was removed before it. -/
structure Walk.Calm (w : Walk) : Prop where
  pending : w.pending.isEmpty
  removed : w.removed = false

theorem visitLeaf_calm (h : w.Calm) (token : Token) :
    (visitLeaf source w (.leaf token)).node = .leaf token ∧ (w.past source (.leaf token)).Calm := by
  have htrivia : keptTrivia source w (.leaf token) = (Node.leaf token).leadingTrivia source := by
    simp [keptTrivia, h.pending, needsSemicolon, h.removed]
  rw [visitLeaf_eq, if_pos (by simp [htrivia])]
  exact ⟨rfl, rfl, by simp [Walk.past, h.removed]⟩

/-- All parameters of the node stay. -/
def keepsParameters (node : Node) : Bool :=
  !(node.isKind .parameterList && node.children.any isDropped)

/-- All parameters of the tree stay. -/
def keepsAllParameters (node : Node) : Bool := node.descendants.all keepsParameters

theorem keepsAllParameters_branch {span : Span} {marks : Marks} :
    keepsAllParameters (.branch kind span marks children) ↔
      (kind = .parameterList → ∀ child ∈ children, isDropped child = false) ∧
        ∀ child ∈ children, keepsAllParameters child := by
  simp only [keepsAllParameters, descendants, List.all_cons, Bool.and_eq_true, List.all_eq_true,
    mem_descendantsOf, keepsParameters, isKind, kind?, Node.children]
  refine and_congr ?_ ⟨fun h child hchild part hpart => h part ⟨child, hchild, hpart⟩, ?_⟩
  · simp [imp_iff_not_or]
  · rintro h part ⟨child, hchild, hpart⟩
    exact h child hchild part hpart

/-! ## Code that stays -/

theorem verdicts_isQuiet (hscope : scope.IsUntyped s)
    (hkept : scope.kind = .parameterList → ∀ child ∈ scope.children, isDropped child = false) :
    ∀ v ∈ verdicts s scope, v.action.IsQuiet := by
  intro v hv
  obtain ⟨index, hindex, rfl⟩ := List.mem_mapIdx.1 hv
  exact (verdict_isQuiet hscope (List.getElem?_eq_getElem hindex)
    fun hkind => hkept hkind _ (List.getElem_mem hindex)).1

theorem Action.IsQuiet.ne_remove {action : Action} (h : action.IsQuiet) (removal : Removal) :
    action ≠ .remove removal := by
  obtain ⟨task, -, rfl⟩ := h
  nofun

/-! ## The size of what waits -/

theorem size_trimStart_le (text : String) :
    (Text.trimStart text).utf8ByteSize ≤ text.utf8ByteSize := by
  have hsplit := congrArg Text.byteLength (List.takeWhile_append_dropWhile (p := Text.isWhiteSpace)
    (l := text.toList))
  rw [Text.byteLength_append, Text.byteLength_toList] at hsplit
  rw [Text.trimStart, Text.utf8ByteSize_ofList]
  omega

theorem size_splitAtLastNewline {text before after : String}
    (h : splitAtLastNewline? text = some (before, after)) :
    before.utf8ByteSize + after.utf8ByteSize = text.utf8ByteSize := by
  unfold splitAtLastNewline? at h
  dsimp only at h
  split at h
  · cases h
  · simp only [Option.some.injEq, Prod.mk.injEq] at h
    obtain ⟨rfl, rfl⟩ := h
    have hsplit := congrArg (Text.byteLength ∘ List.reverse)
      (List.takeWhile_append_dropWhile (p := fun c => !Text.isNewline c) (l := text.toList.reverse))
    simp only [Function.comp_apply, List.reverse_append, List.reverse_reverse,
      Text.byteLength_append, Text.byteLength_toList] at hsplit
    rw [Text.utf8ByteSize_ofList, Text.utf8ByteSize_ofList]
    exact hsplit

/-- What stands between two kept tokens is no more than what stood beside the first removed
one. -/
theorem size_join_le (removed own : String) (first : Bool) :
    (join removed own first).utf8ByteSize ≤ removed.utf8ByteSize + own.utf8ByteSize := by
  have htrim := size_trimStart_le own
  unfold join
  split
  · omega
  · split
    · omega
    · split
      · rw [String.utf8ByteSize_append]
        omega
      · split
        · rename_i before after' before' after hremoved hown
          have hremoved := size_splitAtLastNewline hremoved
          have hown := size_splitAtLastNewline hown
          rw [String.utf8ByteSize_append]
          omega
        · split <;> omega
        · omega

theorem size_joinAtEnd_le (removed own : String) :
    (joinAtEnd removed own).utf8ByteSize ≤ removed.utf8ByteSize + own.utf8ByteSize := by
  have htrim := size_trimStart_le own
  unfold joinAtEnd
  split
  · rw [String.utf8ByteSize_append]
    omega
  · omega

/-- The bytes that wait, and one for the semicolon or the blank that a removal may call for. -/
def Walk.weight (w : Walk) : Nat :=
  (if w.removed then 1 else 0) + (w.pending.gap.elim 0 fun gap => gap.1.utf8ByteSize)

/-- Only the trivia of removed elements waits. -/
structure Walk.Settled (w : Walk) : Prop where
  inherited : w.pending.inherited = ""
  removed : w.pending.gap.isSome → w.removed

theorem size_apply_le (h : w.Settled) (own : String) (atEnd : Bool) :
    (w.pending.apply own atEnd).utf8ByteSize ≤
      own.utf8ByteSize + (w.pending.gap.elim 0 fun gap => gap.1.utf8ByteSize) := by
  have hempty : ("" : String).isEmpty := rfl
  unfold Pending.apply
  simp only [h.inherited, hempty, if_true]
  cases w.pending.gap with
  | none => exact Nat.le_refl _
  | some gap =>
    have hend := size_joinAtEnd_le gap.1 own
    have hjoin := size_join_le gap.1 own gap.2
    cases atEnd with
    | true => simpa [Nat.add_comm] using hend
    | false => simpa [Nat.add_comm] using hjoin

theorem weight_past_le (source : String) (w : Walk) (node : Node) :
    (w.past source node).weight ≤ (if w.removed then 1 else 0) := by
  by_cases hremoved : w.removed
  · simp only [Walk.past, Walk.weight, Option.elim_none, hremoved]
    split <;> simp
  · simp [Walk.past, Walk.weight, hremoved]

theorem weight_past_of_head {c : Char}
    (h : (leafText source node).toList.head? = some c) : (w.past source node).weight = 0 := by
  cases htext : (leafText source node).toList with
  | nil => simp [htext] at h
  | cons c cs => simp [Walk.past, Walk.weight, htext]

theorem Walk.Settled.isRemoved (h : w.Settled) (hwaits : w.pending.isEmpty = false) :
    w.removed := by
  refine h.removed ?_
  have hempty : ("" : String).isEmpty := rfl
  simpa [Pending.isEmpty, h.inherited, hempty, Option.isSome_iff_ne_none] using hwaits

/-- A semicolon or a space is paid by what was removed. -/
theorem lead_cases (h : w.Settled) (trivia : String) (first : Option Char) :
    lead w trivia first = "" ∨
      (lead w trivia first).utf8ByteSize = 1 ∧ w.removed ∧ ∃ c, first = some c := by
  cases first with
  | none => simp [lead, needsSemicolon]
  | some c =>
    unfold lead
    split
    · exact .inr ⟨rfl, by simp_all [needsSemicolon], c, rfl⟩
    · split
      · exact .inr ⟨rfl, h.isRemoved (by simp_all), c, rfl⟩
      · exact .inl rfl

/-- What a leaf gains in trivia is paid by what waited. -/
theorem size_keptTrivia_le (source : String) (h : w.Settled) (node : Node) :
    (keptTrivia source w node).utf8ByteSize + (w.past source node).weight ≤
      (node.leadingTrivia source).utf8ByteSize + w.weight := by
  have hpast := weight_past_le source w node
  have happly := size_apply_le h (node.leadingTrivia source) (node.isToken .endOfFile)
  rw [keptTrivia_eq, String.utf8ByteSize_append]
  rcases lead_cases h (w.pending.apply (node.leadingTrivia source) (node.isToken .endOfFile))
    (leafText source node).toList.head? with hlead | ⟨hsize, hremoved, c, hhead⟩
  · rw [hlead, String.utf8ByteSize_empty]
    cases hempty : w.pending.isEmpty with
    | true =>
      rw [apply_of_isEmpty hempty]
      unfold Walk.weight at hpast ⊢
      omega
    | false =>
      simp only [Walk.weight, h.isRemoved hempty, if_true] at hpast ⊢
      omega
  · rw [hsize, weight_past_of_head hhead]
    simp only [Walk.weight, hremoved, if_true]
    omega

/-! ## Elements that go -/

theorem weight_skip_le (source : String) (w : Walk) (child : Node) (first : Bool) :
    (w.skipAt source child .unit first).weight ≤
      w.weight + (child.firstLeaf.leadingTrivia source).utf8ByteSize + 1 := by
  have hgap : (unitGap (child.firstLeaf.leadingTrivia source)).utf8ByteSize ≤ _ :=
    Text.utf8ByteSize_slice_le _ _ _
  simp only [Walk.skipAt, Walk.weight, Pending.collapse, if_true]
  cases w.pending.gap with
  | none =>
    simp only [Option.none_or, Option.elim_some, Option.elim_none]
    omega
  | some gap =>
    simp only [Option.some_or, Option.elim_some]
    omega

theorem firstTrivia_size (h : Tiles source child i j) :
    (child.firstLeaf.leadingTrivia source).utf8ByteSize + i = child.span.start := by
  obtain ⟨token, k, hfirst, hstart, htoken⟩ := firstLeaf_of_tiles h
  obtain ⟨hread, rfl, -⟩ : token.Read source ∧ token.span.pos = i ∧ token.span.stop = k := by
    simpa only [Tiles] using htoken
  have hlies := hread.lies
  have htrivia : (leaf token).leadingTrivia source =
      Text.slice source token.span.pos token.span.start := by
    simp only [leadingTrivia, hread.bare, Option.getD_none]
  rw [hfirst, htrivia, Text.utf8ByteSize_slice hlies.pos hlies.start hlies.pos_le, ← hstart]
  exact Nat.sub_add_cancel hlies.pos_le

/-- A sign or a word of the language is never empty. -/
theorem start_lt_of_isToken {kind : TokenKind}
    (h : Tiles source node i j) (htoken : node.isToken kind)
    (hkind : kind ≠ .endOfFile ∧ kind ≠ .unknown ∧ kind ≠ .identifier) : node.span.start < j := by
  cases node with
  | inserted piece => simp only [Tiles] at h
  | branch => cases htoken
  | leaf token =>
    obtain ⟨hread, -, rfl⟩ : token.Read source ∧ token.span.pos = i ∧ token.span.stop = j := by
      simpa only [Tiles] using h
    obtain ⟨reached, hreached, hsame, hspan⟩ := hread.reading
    obtain rfl : token.kind = kind := by simpa [isToken, token?] using htoken
    have hscanned : token.kind = reached.kind := hsame.resolve_right fun h => hkind.2.2 h.1
    have hmoves := hreached.fits.moves (hscanned ▸ hkind.1) (hscanned ▸ hkind.2.1)
    simpa only [Node.span, hspan] using hmoves

theorem countP_single_le (h : Tiles source node i j) :
    [node].countP (isToken .equals) + [node].countP (isToken .thisKeyword) + node.span.start ≤
      j := by
  obtain ⟨-, rfl, hlies⟩ := h.lies
  by_cases hequals : node.isToken .equals
  · have hlt := start_lt_of_isToken h hequals (by decide)
    have hother : node.isToken .thisKeyword = false := by
      simp_all [isToken]
    simp only [List.countP_cons, List.countP_nil, hequals, hother, if_true, Bool.false_eq_true,
      if_false]
    omega
  · by_cases hthis : node.isToken .thisKeyword
    · have hlt := start_lt_of_isToken h hthis (by decide)
      simp only [List.countP_cons, List.countP_nil, hequals, hthis, if_true,
        Bool.false_eq_true, if_false]
      omega
    · simpa [List.countP_cons, hequals, hthis] using hlies.start_le

/-- Signs among nodes side by side take up room after the start of the first one. -/
theorem countP_add_start_le {nodes : List Node} (h : TileAll source (node :: nodes) i j) :
    (node :: nodes).countP (isToken .equals) + (node :: nodes).countP (isToken .thisKeyword) +
      node.span.start ≤ j := by
  induction nodes generalizing node i with
  | nil =>
    obtain ⟨k, hnode, rfl⟩ : ∃ k, Tiles source node i k ∧ k = j := by
      simpa only [tileAll_cons, tileAll_nil] using h
    exact countP_single_le hnode
  | cons other nodes ih =>
    obtain ⟨k, hnode, hrest⟩ := tileAll_cons.1 h
    have hsingle := countP_single_le hnode
    have hothers := ih hrest
    have hstart : k ≤ other.span.start := by
      obtain ⟨l, hother, -⟩ := tileAll_cons.1 hrest
      obtain ⟨rfl, -, hlies⟩ := hother.lies
      exact hlies.pos_le
    simp only [List.countP_cons, List.countP_nil] at hsingle hothers ⊢
    omega

theorem defaultsToThis_eq_hasToken (hplain : isPlain child) (hkind : child.isKind .parameter) :
    defaultsToThis child = child.hasToken .thisKeyword := by
  have hname : declaresThis child.children = false := by
    cases child with
    | branch kind span marks children =>
      obtain rfl : kind = .parameter := by simpa [isKind, kind?] using hkind
      simp only [isPlain, hasPlainParts, Bool.and_eq_true, Bool.not_eq_true'] at hplain
      exact hplain.2
    | _ => cases hkind
  unfold declaresThis at hname
  rw [hasToken, ← List.takeWhile_append_dropWhile (p := fun part => !part.isToken .equals)
    (l := child.children), List.any_append, hname, Bool.false_or, defaultsToThis]

theorem exists_equals_of_defaultsToThis (h : defaultsToThis child) :
    ∃ part ∈ child.children, part.isToken .equals := by
  by_contra hnone
  have hempty : (child.children.dropWhile fun part => !part.isToken .equals) = [] :=
    List.dropWhile_eq_nil_iff.2 (by simpa using hnone)
  rw [defaultsToThis, hempty] at h
  cases h

/-- The equals sign and the word `this` make a parameter longer than what it leaves behind. -/
theorem start_add_two_le_of_isDropped (h : Tiles source child i j)
    (huntyped : isUntyped child) (hdropped : isDropped child) :
    child.span.start + 2 ≤ j := by
  obtain ⟨hkind, hthis⟩ : child.isKind .parameter ∧ child.hasToken .thisKeyword := by
    simpa [isDropped] using hdropped
  have hplain := List.all_eq_true.1 huntyped child (mem_descendants_self child)
  have hequals := exists_equals_of_defaultsToThis
    ((defaultsToThis_eq_hasToken hplain hkind).trans hthis)
  have hthisCount := List.countP_pos_iff.2 (List.any_eq_true.1 hthis)
  have hequalsCount := List.countP_pos_iff.2 hequals
  cases child with
  | leaf token | inserted piece => cases hkind
  | branch kind span marks children =>
    obtain ⟨rfl, -, hne, hchildren⟩ := tiles_branch.1 h
    cases children with
    | nil => exact absurd rfl hne
    | cons first rest =>
      have hroom := countP_add_start_le hchildren
      rw [Node.span, spanOf_cons_start]
      simp only [Node.children] at hthisCount hequalsCount
      omega

/-! ## Steps over code without types -/

/-- These steps over code of the source, with these leaves, tell nothing and pass over these pieces.
Each of them has text, and more than one byte of it if it is a parameter. -/
inductive Thins (source : String) : List Step → List Node → List Node → Prop where
  | nil : Thins source [] [] []
  | tell {steps : List Step} {leaves passed : List Node} :
    Thins source steps leaves passed → Thins source (.tell [] :: steps) leaves passed
  | start {steps : List Step} {leaves passed : List Node} (atStart : Bool) :
    Thins source steps leaves passed → Thins source (.start atStart :: steps) leaves passed
  | keep {steps : List Step} {leaves passed : List Node} (token : Token) :
    Thins source steps leaves passed →
    Thins source (.keep (leaf token) :: steps) (leaf token :: leaves) passed
  | pass {steps : List Step} {leaves passed : List Node} {child : Node} {i j : Nat} (first : Bool) :
    Tiles source child i j → child.span.start < j →
    (isDropped child → child.span.start + 2 ≤ j) → Thins source steps leaves passed →
    Thins source (.pass child .unit first :: steps) (child.leaves ++ leaves) (child :: passed)

namespace Thins

variable {steps steps' : List Step} {leaves leaves' passed passed' : List Node}

theorem append (h : Thins source steps leaves passed) (h' : Thins source steps' leaves' passed') :
    Thins source (steps ++ steps') (leaves ++ leaves') (passed ++ passed') := by
  induction h with
  | nil => exact h'
  | tell _ ih => exact .tell ih
  | start atStart _ ih => exact .start atStart ih
  | keep token _ ih => exact .keep token ih
  | pass first htiles hsolid hlong _ ih =>
    rw [List.append_assoc]
    exact .pass first htiles hsolid hlong ih

theorem enter (policy : Policy) (child : Node) (lastKept : Option Label) :
    Thins source (enterSteps policy child lastKept) [] [] := by
  unfold enterSteps
  split
  · exact .start _ .nil
  · exact .nil

theorem leave (policy : Policy) : Thins source (leaveSteps policy) [] [] := by
  unfold leaveSteps
  split
  · exact .start _ .nil
  · exact .nil

theorem leavesAlong_eq (h : Thins source steps leaves passed) (hnone : passed = []) {w : Walk}
    (hw : w.Calm) : Step.leavesAlong source w steps = leaves := by
  induction h generalizing w with
  | nil => rfl
  | tell _ ih | start atStart _ ih => exact ih hnone ⟨hw.pending, hw.removed⟩
  | keep token _ ih =>
    obtain ⟨hsame, hcalm⟩ : (visitLeaf source w (leaf token)).node = leaf token ∧ _ :=
      visitLeaf_calm hw token
    rw [Step.leavesAlong_cons, Step.leaves, hsame]
    exact congrArg _ (ih hnone hcalm)
  | pass => cases hnone

theorem size_leaf_le (source : String) {w : Walk} (h : w.Settled) (token : Token) :
    (spell source [(visitLeaf source w (leaf token)).node]).utf8ByteSize +
        (w.past source (leaf token)).weight ≤
      (spell source [leaf token]).utf8ByteSize + w.weight := by
  have htrivia := size_keptTrivia_le source h (leaf token)
  rw [spell_single, spell_single, leadingTrivia_visitLeaf rfl, leafText_visitLeaf,
    String.utf8ByteSize_append, String.utf8ByteSize_append]
  omega

/-- What is kept, with what waits after it, is no longer than what the steps came to, with what
waited before. It is as long only if no parameter goes. -/
theorem size_le (h : Thins source steps leaves passed) {w : Walk} (hw : w.Settled) :
    (Step.walkAlong source w steps).findings = w.findings ∧
      (spell source (Step.leavesAlong source w steps)).utf8ByteSize +
          (Step.walkAlong source w steps).weight ≤ (spell source leaves).utf8ByteSize + w.weight ∧
      ((spell source (Step.leavesAlong source w steps)).utf8ByteSize +
          (Step.walkAlong source w steps).weight = (spell source leaves).utf8ByteSize + w.weight →
        ∀ child ∈ passed, isDropped child = false) := by
  induction h generalizing w with
  | nil => exact ⟨rfl, Nat.le_refl _, by simp⟩
  | tell _ ih =>
    obtain ⟨hfindings, hrest⟩ := ih (w := { w with findings := w.findings ++ [] })
      ⟨hw.inherited, hw.removed⟩
    exact ⟨hfindings.trans (List.append_nil _), hrest⟩
  | start atStart _ ih => exact ih (w := { w with atStart }) ⟨hw.inherited, hw.removed⟩
  | @keep steps leaves passed token _ ih =>
    have hleaf := size_leaf_le source hw token
    obtain ⟨hfindings, hle, hstays⟩ := ih (w := w.past source (leaf token)) ⟨rfl, nofun⟩
    rw [Step.walkAlong_cons, Step.leavesAlong_cons, ← List.singleton_append]
    simp only [Step.leaves, Step.next, spell_append, String.utf8ByteSize_append]
    exact ⟨hfindings, by omega, fun heq => hstays (by omega)⟩
  | @pass steps leaves passed child i j first htiles hsolid hlong _ ih =>
    have hweight := weight_skip_le source w child first
    have htrivia := firstTrivia_size htiles
    obtain ⟨hfindings, hle, hstays⟩ := ih (w := w.skipAt source child .unit first)
      ⟨hw.inherited, fun _ => rfl⟩
    obtain ⟨rfl, rfl, hlies⟩ := htiles.lies
    have hpos := hlies.pos_le
    have hsize := Text.utf8ByteSize_slice hlies.pos hlies.stop (Nat.le_trans hpos hlies.start_le)
    simp only [Step.walkAlong_cons, Step.leavesAlong_cons, Step.leaves, Step.next, List.nil_append,
      spell_append, String.utf8ByteSize_append, spell_of_tiles htiles, hsize]
    refine ⟨hfindings, by omega, fun heq => List.forall_mem_cons.2 ⟨?_, hstays (by omega)⟩⟩
    by_contra hdropped
    have hroom := hlong (by simpa using hdropped)
    omega

end Thins

/-- The node is a parameter that goes from a list of parameters. -/
def goes (kind : NodeKind) (child : Node) : Bool := kind == .parameterList && isDropped child

/-- What happens to a child of code without types: a parameter with `this` goes, a comma may go
with it, and all else stays. -/
def Action.Spares (kind : NodeKind) (child : Node) (action : Action) : Prop :=
  if goes kind child then action = .remove .unit
  else action.IsQuiet ∨ action = .remove .unit ∧ child.isToken .comma

theorem verdict_spares {scope : Scope} (hscope : scope.IsUntyped s) {index : Nat} {child : Node}
    (hchild : scope.children[index]? = some child) :
    (verdict s scope index child).action.Spares scope.kind child ∧
      (verdict s scope index child).finding = none := by
  unfold Action.Spares
  by_cases hgoes : goes scope.kind child
  · obtain ⟨hkind, hdropped⟩ : scope.kind = .parameterList ∧ isDropped child := by
      simpa [goes] using hgoes
    rw [verdict_of_isDropped hscope hchild hkind hdropped, if_pos hgoes]
    exact ⟨rfl, rfl⟩
  · have hkept : scope.kind = .parameterList → isDropped child = false := by
      simpa [goes] using hgoes
    obtain ⟨hquiet, hfinding⟩ := verdict_isQuiet hscope hchild hkept
    rw [if_neg hgoes]
    exact ⟨.inl hquiet, hfinding⟩

theorem goes_of_isToken {child : Node} {token : TokenKind} (h : child.isToken token)
    (kind : NodeKind) : goes kind child = false := by
  cases child with
  | branch => cases h
  | _ => simp [goes, isDropped, isKind, kind?]

theorem actions_spare {scope : Scope} (hscope : scope.IsUntyped s) :
    List.Forall₂ (Action.Spares scope.kind) scope.children (actionsOf s scope) := by
  refine actions_forall₂ (fun index child hchild => ?_) fun child hcomma => ?_
  · exact (verdict_spares hscope hchild).1
  · rw [Action.Spares, goes_of_isToken hcomma]
    exact .inr ⟨rfl, hcomma⟩

theorem verdicts_findings {scope : Scope} (hscope : scope.IsUntyped s) :
    (verdicts s scope).filterMap (·.finding) = [] := by
  rw [List.filterMap_eq_nil_iff]
  intro v hv
  obtain ⟨index, hindex, rfl⟩ := List.mem_mapIdx.1 hv
  exact (verdict_spares hscope (List.getElem?_eq_getElem hindex)).2

theorem room_of_spares {kind : NodeKind} {child : Node} {i j : Nat} (h : Tiles source child i j)
    (huntyped : isUntyped child) (hspares : Action.Spares kind child (.remove .unit)) :
    child.span.start < j ∧ (isDropped child → child.span.start + 2 ≤ j) ∧
      (isDropped child = false → keepsAllParameters child) := by
  unfold Action.Spares at hspares
  split at hspares
  · have hdropped : isDropped child := by simp_all [goes]
    have hroom := start_add_two_le_of_isDropped h huntyped hdropped
    exact ⟨by omega, fun _ => hroom, fun hnot => by cases hnot.symm.trans hdropped⟩
  · obtain ⟨-, hcomma⟩ := hspares.resolve_left fun hquiet => hquiet.ne_remove .unit rfl
    refine ⟨start_lt_of_isToken h hcomma (by decide), fun hdropped => ?_, fun _ => ?_⟩
    · cases child <;> first | cases hcomma | cases hdropped
    · cases child <;> first | cases hcomma | rfl

mutual

/-- The steps over code without types pass over nothing if all parameters stay, and over a
parameter else. -/
theorem steps_thin (hs : s.IsUntyped) : ∀ {node : Node} {i j : Nat} {task : Task},
    Tiles s.source node i j → isUntyped node → task.isQuiet →
      ∃ passed, Thins s.source (steps s task node) node.leaves passed ∧
        (keepsAllParameters node → passed = []) ∧
        ((∀ child ∈ passed, isDropped child = false) → keepsAllParameters node)
  | leaf token, i, j, task, _, _, htask => by
    have hdress : task.dress (leaf token) = leaf token :=
      dress_of_ne_trivia (by rintro trivia rfl; cases htask) _
    have hsteps : steps s task (leaf token) = [.keep (leaf token)] := by
      rw [steps, hdress]
      nofun
    rw [hsteps]
    exact ⟨[], .keep token .nil, fun _ => rfl, fun _ => rfl⟩
  | inserted piece, i, j, task, h, _, _ => by simp only [Tiles] at h
  | branch kind span marks children, i, j, task, h, huntyped, htask => by
    have hchildren := h.tileAll
    obtain ⟨hparts, hbelow⟩ := isUntyped_branch.1 huntyped
    have hscope : Scope.IsUntyped s ⟨kind, span, task, children⟩ := ⟨hs, hparts, hbelow, htask⟩
    have hfindings := verdicts_findings hscope
    have hactions := actions_spare hscope
    have hquiet : keepsAllParameters (branch kind span marks children) →
        ∀ action ∈ actionsOf s ⟨kind, span, task, children⟩,
          action.IsQuiet := by
      intro hkeeps
      have hverdicts : ∀ v ∈ verdicts s ⟨kind, span, task, children⟩, v.action.IsQuiet :=
        verdicts_isQuiet hscope (keepsAllParameters_branch.1 hkeeps).1
      rw [actions_of_keep fun v hv => (hverdicts v hv).ne_remove .unit]
      simpa using hverdicts
    obtain ⟨passed, hthins, hkept, hstays⟩ := stepsAll_thin hs (policy kind) none hchildren hbelow
      hactions hquiet fun hkeeps => (keepsAllParameters_branch.1 hkeeps).2
    rw [steps_branch (policy_of_hasPlainParts hparts).2.2.2, leaves, hfindings]
    refine ⟨passed, .tell hthins, hkept, fun hnone => keepsAllParameters_branch.2
      ⟨fun hkind child hchild => ?_, fun child hchild => (hstays hnone child hchild).2⟩⟩
    simpa [goes, hkind] using (hstays hnone child hchild).1

theorem stepsAll_thin (hs : s.IsUntyped) (policy : Policy) {kind : NodeKind} {stays : Prop} :
    ∀ (lastKept : Option Label) {children : List Node} {i j : Nat} {actions : List Action},
    TileAll s.source children i j → (∀ child ∈ children, isUntyped child) →
      List.Forall₂ (Action.Spares kind) children actions →
      (stays → ∀ action ∈ actions, action.IsQuiet) →
      (stays → ∀ child ∈ children, keepsAllParameters child) →
      ∃ passed, Thins s.source (stepsAll s policy lastKept actions children)
        (leavesOf children) passed ∧ (stays → passed = []) ∧
        ((∀ child ∈ passed, isDropped child = false) →
          ∀ child ∈ children, goes kind child = false ∧ keepsAllParameters child)
  | lastKept, [], i, j, actions, _, _, _, _, _ => by
    rw [stepsAll]
    exact ⟨[], .nil, fun _ => rfl, by simp⟩
  | lastKept, child :: rest, i, j, action :: others, h, huntyped, .cons hfirst hothers, hquiet,
      hkeeps => by
    obtain ⟨k, hchild, hrest⟩ := tileAll_cons.1 h
    simp only [List.forall_mem_cons] at huntyped hquiet hkeeps ⊢
    have hmore := fun lastKept => stepsAll_thin hs policy lastKept hrest huntyped.2 hothers
      (fun hall => (hquiet hall).2) fun hall => (hkeeps hall).2
    rw [stepsAll, leavesOf]
    by_cases hremove : action = .remove .unit
    · subst hremove
      obtain ⟨hsolid, hlong, hbelow⟩ := room_of_spares hchild huntyped.1 hfirst
      obtain ⟨passed, hthins, hkept, hstays⟩ := hmore lastKept
      refine ⟨child :: passed, .pass _ hchild hsolid hlong hthins,
        fun hall => absurd rfl ((hquiet hall).1.ne_remove .unit), fun hnone => ?_⟩
      rw [List.forall_mem_cons] at hnone
      exact ⟨⟨by simp [goes, hnone.1], hbelow hnone.1⟩, hstays hnone.2⟩
    · have hgoes : goes kind child = false := by
        by_contra hgoes
        exact hremove (by simpa [Action.Spares, hgoes] using hfirst)
      obtain ⟨task, htask, rfl⟩ : action.IsQuiet := by
        simpa [Action.Spares, hgoes, hremove] using hfirst
      obtain ⟨passed, hthins, hkept, hstays⟩ := steps_thin hs hchild huntyped.1 htask
      obtain ⟨passed', hthins', hkept', hstays'⟩ := hmore (some (keptLabel child []))
      refine ⟨passed ++ passed', ?_, fun hall => ?_, fun hnone => ?_⟩
      · have hall := (((Thins.enter policy child lastKept).append hthins).append
          (Thins.leave policy)).append hthins'
        simpa [pieceSteps] using hall
      · rw [hkept (hkeeps hall).1, hkept' hall]
        rfl
      · rw [List.forall_mem_append] at hnone
        exact ⟨⟨hgoes, hstays hnone.1⟩, hstays' hnone.2⟩

end

/-! ## Files without types -/

/-- A parameter of the tree has the bare word `this` as the value that stands for it when it is
left out. -/
def HasThisDefault (root : Node) : Prop :=
  ∃ list ∈ root.descendants, list.isKind .parameterList ∧
    ∃ parameter ∈ list.children, parameter.isKind .parameter ∧
      defaultsToThis parameter

theorem keepsAllParameters_iff {root : Node} (h : isUntyped root) :
    keepsAllParameters root ↔ ¬ HasThisDefault root := by
  have hparameter : ∀ list ∈ root.descendants, ∀ parameter ∈ list.children,
      parameter.isKind .parameter →
        defaultsToThis parameter = parameter.hasToken .thisKeyword := by
    intro list hlist parameter hmem hkind
    exact defaultsToThis_eq_hasToken
      (List.all_eq_true.1 h parameter (mem_descendants_of_mem_children hmem hlist)) hkind
  simp only [keepsAllParameters, List.all_eq_true, HasThisDefault, not_exists, not_and]
  refine forall₂_congr fun list hlist => ?_
  simp only [keepsParameters, Bool.not_eq_true', Bool.and_eq_false_imp, List.any_eq_false]
  refine imp_congr_right fun _ => forall₂_congr fun parameter hmem => ?_
  simp only [isDropped, Bool.and_eq_true, not_and]
  exact imp_congr_right fun hkind => by rw [hparameter list hlist parameter hmem hkind]

variable {tree : SyntaxTree} {i j : Nat}

/-- Nothing is told about a tree without types, and it is spelled as before if and only if all
parameters stay. -/
theorem erase_untyped (h : Tiles tree.source tree.root i j)
    (huntyped : isUntyped tree.root) (options : Options) :
    (tree.erase options).findings = [] ∧
      ((tree.erase options).tree.text = spell tree.source tree.root.leaves ↔
        keepsAllParameters tree.root) := by
  have hs := Setting.ofTree_isUntyped options tree.source huntyped
  obtain ⟨passed, hthins, hkept, hstays⟩ := steps_thin hs h huntyped (rfl : Task.none.isQuiet)
  obtain ⟨hleaves, hwalk⟩ :=
    visit_follows (.ofTree options tree.source tree.root) tree.root .none {}
  obtain ⟨hfindings, hle, hsame⟩ := hthins.size_le (⟨rfl, nofun⟩ : Walk.Settled {})
  rw [SyntaxTree.text_erase h, SyntaxTree.erase, hleaves, hwalk]
  refine ⟨hfindings, fun hspell => hstays (hsame ?_), fun hkeeps => ?_⟩
  · have hstart : ({} : Walk).weight = 0 := rfl
    have hsize := congrArg String.utf8ByteSize hspell
    simp only [Setting.ofTree] at hsize hle ⊢
    omega
  · exact congrArg _ (hthins.leavesAlong_eq (hkept hkeeps) ⟨rfl, rfl⟩)

end Untype.Erasure

namespace Untype

open Erasure in
/-- A file without types comes back as it was, with nothing told about it, if and only if no
parameter has the bare word `this` as its value. -/
theorem convert_untyped_iff {file text : String} {tree : SyntaxTree}
    (hparse : SyntaxTree.parse file text = .ok tree) (huntyped : isUntyped tree.root = true)
    (options : Options) :
    (tree.erase options).findings = [] ∧
      (convert file text options =
          .ok { code := text, warnings := tree.findings.map (·.inFile file) } ↔
        ¬ HasThisDefault tree.root) := by
  obtain ⟨rfl, htiles, -⟩ := SyntaxTree.parseAs_tiles hparse
  obtain ⟨hfindings, hsame⟩ := erase_untyped htiles huntyped options
  have hwhole : spell tree.source tree.root.leaves = tree.source :=
    (spell_of_tiles htiles).trans (Text.slice_all _)
  have hconvert : convert file tree.source options =
      .ok { code := (tree.erase options).tree.text,
            warnings := tree.findings.map (·.inFile file) } := by
    simp [convert, hparse, hfindings, bind, Except.bind, pure, Except.pure]
  rw [hwhole] at hsame
  refine ⟨hfindings, ?_⟩
  rw [hconvert, ← keepsAllParameters_iff huntyped]
  simpa only [Except.ok.injEq, Converted.mk.injEq, and_true] using hsame

open Erasure in
/-- Values of parameters that hold `this` in a greater whole, and signs that look like types. -/
theorem convert_untyped_iff_conditional :
    ∃ tree, SyntaxTree.parse "a.ts" "f = (a = this.b, c = (this)) => a ? !c : this < a;" =
      .ok tree ∧ isUntyped tree.root = true ∧ (tree.erase {}).findings = [] ∧
        (convert "a.ts" "f = (a = this.b, c = (this)) => a ? !c : this < a;" {} =
            .ok { code := "f = (a = this.b, c = (this)) => a ? !c : this < a;",
                  warnings := tree.findings.map (·.inFile "a.ts") } ↔
          ¬ HasThisDefault tree.root) :=
  SyntaxTree.exists_checked_and (by decide +kernel) fun _ hparse huntyped =>
    convert_untyped_iff hparse huntyped {}

open Erasure in
/-- A parameter that is `this` when it is left out is lost, with no type in sight. -/
theorem convert_loses_this_default :
    ∃ tree, SyntaxTree.parse "a.ts" "function f(a = this) {}" = .ok tree ∧
      isUntyped tree.root = true ∧
        convert "a.ts" "function f(a = this) {}" {} =
          .ok { code := "function f() {}", warnings := [] } :=
  SyntaxTree.exists_checked (by decide +kernel)

end Untype
