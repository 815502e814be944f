-- Two tokens that come together because what stood between them is removed:
-- a space is put in where they would be read as one, provided that something
-- waits for the second of them.
import Untype.Proofs.Erasure.Visits
import Untype.Proofs.Trivia.Gaps
import Untype.Proofs.Tokens.Apart

namespace Untype

open Untype.Node Untype.Text

namespace Erasure

/-! ## Leaves of the source -/

/-- The leaf is inserted, or it is a token of the source, with whatever trivia. -/
def IsLeafOf (source : String) : Node → Prop
  | .leaf token => ∃ original : Token, original.Read source ∧ token.kind = original.kind ∧
      token.span = original.span
  | .inserted _ => True
  | .branch .. => False

namespace Step

/-- The step keeps a leaf that is inserted or a token of the source, or a tree of the source. -/
def IsOf (source : String) : Step → Prop
  | keep node => IsLeafOf source node
  | stay node => ∃ i j, Tiles source node i j
  | _ => True

end Step

section Sources

variable {s : Setting} {source : String} {w : Walk} {node : Node}

theorem steps_isOf (node : Node) {i j : Nat} (task : Task) (h : Tiles s.source node i j) :
    ∀ step ∈ steps s task node, step.IsOf s.source := by
  refine Carries.steps (Q := fun _ node => ∃ i j, Tiles s.source node i j)
    ⟨fun _ => trivial, fun _ => trivial, ?_, fun h _ => h, ?_⟩ node task ⟨i, j, h⟩
  · rintro task node ⟨i, j, h⟩ hnone
    cases node with
    | leaf token =>
      obtain ⟨hread, -⟩ : token.Read s.source ∧ token.span.pos = i ∧ token.span.stop = j := by
        simpa only [Tiles] using h
      cases task <;> exact ⟨token, hread, rfl, rfl⟩
    | inserted piece => simp only [Tiles] at h
    | branch => cases hnone
  · rintro task node child action ⟨i, j, h⟩ ⟨kind, span, marks, children, index, rfl, -, hchild, -⟩
    cases action with
    | keep =>
      exact ⟨h.tileAll.mem (List.mem_of_getElem? hchild), fun _ _ => trivial⟩
    | replace => trivial
    | remove => exact fun _ => trivial

end Sources

/-! ## What waits -/

namespace Step

/-- The step keeps nothing. -/
def isMute : Step → Bool
  | keep _ | stay _ => false
  | _ => true

/-- The step keeps nothing and leaves nothing for the next leaf. -/
def isQuiet (source : String) : Step → Bool
  | keep _ | stay _ => false
  | pass child removal _ =>
    match removal with
    | .silent => true
    | .inside => child.leaves.all fun part => !hasComments (part.leadingTrivia source)
    | _ => false
  | _ => true

variable {source : String} {w : Walk} {step : Step} {steps : List Step}

theorem isEmpty_insideComments {trivia : String} (h : hasComments trivia) :
    (insideComments trivia).isEmpty = false := by
  have hpiece : trimEnd trivia ≠ "" := by
    intro hempty
    obtain ⟨blanks, hsplit, hblanks⟩ := exists_trimEnd trivia
    rw [hempty, String.toList_empty, List.nil_append] at hsplit
    rw [hasComments, hsplit, opensComment_of_whiteSpace hblanks] at h
    cases h
  unfold insideComments
  rw [if_pos h]
  dsimp only
  split
  · split
    · simp
    · simpa using hpiece
  · simpa using hpiece

theorem isEmpty_inherit (pending : Pending) (comments : String) :
    (pending.inherit comments).isEmpty = (pending.isEmpty && comments.isEmpty) := by
  have happend : (pending.inherited ++ comments).isEmpty =
      (pending.inherited.isEmpty && comments.isEmpty) := by
    rw [Bool.eq_iff_iff]
    simp
  simp only [Pending.isEmpty, Pending.inherit, happend]
  cases pending.inherited.isEmpty <;> cases pending.gap.isNone <;> simp

theorem isEmpty_inheritAll (parts : List Node) (pending : Pending)
    (h : pending.isEmpty = false ∨ ∃ part ∈ parts, hasComments (part.leadingTrivia source)) :
    (parts.foldl (fun pending part => pending.inherit (insideComments (part.leadingTrivia source)))
      pending).isEmpty = false := by
  induction parts generalizing pending with
  | nil => simpa using h
  | cons part parts ih =>
    apply ih
    rw [isEmpty_inherit, Bool.and_eq_false_iff]
    rcases h with hpending | ⟨other, hmem, hcomments⟩
    · exact .inl (.inl hpending)
    · rcases List.mem_cons.1 hmem with rfl | hmem
      · exact .inl (.inr (isEmpty_insideComments hcomments))
      · exact .inr ⟨other, hmem, hcomments⟩

/-- What waits goes on waiting, and the last character stays, while nothing is kept. -/
theorem next_of_isMute (h : step.isMute) :
    (step.next source w).lastChar = w.lastChar ∧
      ((w.pending.isEmpty = false ∨ step.isQuiet source = false) →
        (step.next source w).pending.isEmpty = false) := by
  cases step with
  | tell findings | start atStart => exact ⟨rfl, by simp [isQuiet, next]⟩
  | keep node | stay node => cases h
  | pass child removal first =>
    refine ⟨rfl, fun hwaits => ?_⟩
    cases removal with
    | unit | modifier | opening => simp [next, Walk.skipAt, Pending.collapse, Pending.isEmpty]
    | silent => simpa [isQuiet, next, Walk.skipAt] using hwaits
    | inside =>
      refine isEmpty_inheritAll child.leaves w.pending (hwaits.imp_right fun hloud => ?_)
      simpa [isQuiet] using hloud

theorem walkAlong_of_isMute (h : ∀ step ∈ steps, step.isMute) :
    (walkAlong source w steps).lastChar = w.lastChar ∧
      ((w.pending.isEmpty = false ∨ ∃ step ∈ steps, step.isQuiet source = false) →
        (walkAlong source w steps).pending.isEmpty = false) := by
  induction steps generalizing w with
  | nil => exact ⟨rfl, by simp⟩
  | cons step steps ih =>
    rw [List.forall_mem_cons] at h
    obtain ⟨hlast, hwaits⟩ := next_of_isMute (w := w) h.1
    obtain ⟨hlast', hwaits'⟩ := ih (w := step.next source w) h.2
    refine ⟨hlast'.trans hlast, fun hsome => hwaits' ?_⟩
    rcases hsome with hw | ⟨other, hmem, hquiet⟩
    · exact .inl (hwaits (.inl hw))
    · rcases List.mem_cons.1 hmem with rfl | hmem
      · exact .inl (hwaits (.inr hquiet))
      · exact .inr ⟨other, hmem, hquiet⟩

/-! ## Neighbours -/

theorem leaves_of_isMute (h : step.isMute) : step.leaves source w = [] := by
  cases step with
  | keep node | stay node => cases h
  | _ => rfl

/-- What a step that keeps something does: its first leaf gets what waits, its leaves lie side by
side as in the source, and the walk goes on from the last of them. -/
structure Keeps (source : String) (w : Walk) (step : Step) (first : Node) : Prop where
  opens : ∃ tail, step.leaves source w = (visitLeaf source w first).node :: tail
  isLeaf : IsLeafOf source first
  isLeaves : ∀ part ∈ step.leaves source w, IsLeafOf source part
  adjacent : (step.leaves source w).IsChain fun part next => next.span.pos = part.span.stop
  empty : (step.next source w).pending.isEmpty
  lastChar : ∀ part ∈ (step.leaves source w).getLast?, ∀ c ∈ (leafText source part).toList.getLast?,
    (step.next source w).lastChar = some c

theorem isLeafOf_of_read {token : Token} (h : token.Read source) : IsLeafOf source (leaf token) :=
  ⟨token, h, rfl, rfl⟩

theorem isLeafOf_visitLeaf {node : Node} (h : IsLeafOf source node) :
    IsLeafOf source (visitLeaf source w node).node := by
  rcases visitLeaf_cases source w node with ⟨-, hsame⟩ | hother
  · rwa [hsame]
  · rw [hother]
    cases node <;> exact h

theorem IsOf.keeps (h : step.IsOf source) (hloud : step.isMute = false) :
    ∃ first, step.Keeps source w first := by
  cases step with
  | tell | start | pass => cases hloud
  | keep node =>
    refine ⟨node, ⟨[], rfl⟩, h, ?_, List.isChain_singleton _, rfl, ?_⟩
    · exact List.forall_mem_singleton.2 (isLeafOf_visitLeaf h)
    · intro part hpart c hc
      obtain rfl : (visitLeaf source w node).node = part := by simpa [leaves] using hpart
      rw [leafText_visitLeaf, Option.mem_def] at hc
      simp only [next, Walk.past, hc]
      rfl
  | stay node =>
    obtain ⟨i, j, htiles⟩ := h
    have hleaves : (stay node).leaves source w =
      (visitLeaf source w node.firstLeaf).node :: node.leaves.tail := leaves_visitTypeSyntax htiles
    have htokens := htiles.mem_leaves
    obtain ⟨token, hfirst, hread⟩ := htokens _ htiles.firstLeaf_mem
    refine ⟨node.firstLeaf, ⟨_, hleaves⟩, hfirst ▸ isLeafOf_of_read hread, ?_, ?_, ?_, ?_⟩
    · rw [hleaves, List.forall_mem_cons, hfirst]
      refine ⟨isLeafOf_visitLeaf (isLeafOf_of_read hread), fun part hpart => ?_⟩
      obtain ⟨token, rfl, hread⟩ := htokens part (List.mem_of_mem_tail hpart)
      exact isLeafOf_of_read hread
    · have hchain := htiles.leaves.2.adjacent
      rw [htiles.leaves_eq_cons, List.isChain_cons] at hchain
      rw [hleaves, List.isChain_cons, span_visitLeaf]
      exact hchain
    · rw [next, visitTypeSyntax, visitLeaf_walk]
      rfl
    · intro part hpart c hc
      have hend := htiles.getLast?_leaves
      obtain ⟨token, htoken, -⟩ := htokens _ (List.mem_of_getLast? hend)
      rw [htiles.leaves_eq_cons] at hend
      rw [hleaves] at hpart
      have htext : leafText source node.lastLeaf = node.lastLeaf.text source := by
        rw [htoken]
        rfl
      have hlast : leafText source part = leafText source node.lastLeaf := by
        cases htail : node.leaves.tail with
        | nil =>
          rw [htail] at hend hpart
          obtain rfl : (visitLeaf source w node.firstLeaf).node = part := by simpa using hpart
          rw [leafText_visitLeaf, (by simpa using hend : node.firstLeaf = node.lastLeaf)]
        | cons next others =>
          rw [htail, List.getLast?_cons_cons] at hend hpart
          rw [Option.some.inj (hend.symm.trans hpart)]
      rw [hlast, htext, Option.mem_def] at hc
      simp only [next, visitTypeSyntax, hc]
      rfl

variable {front back : List Node} {part other : Node}

/-- The first leaf comes from the first step that keeps something. -/
theorem leavesAlong_head (hof : ∀ step ∈ steps, step.IsOf source)
    (h : leavesAlong source w steps = part :: back) :
    ∃ between step after, steps = between ++ step :: after ∧
      (∀ step ∈ between, step.isMute) ∧ step.isMute = false ∧
      (step.leaves source (walkAlong source w between)).head? = some part := by
  induction steps generalizing w with
  | nil => cases h
  | cons step steps ih =>
    rw [List.forall_mem_cons] at hof
    rw [leavesAlong_cons] at h
    cases hmute : step.isMute with
    | true =>
      rw [leaves_of_isMute hmute, List.nil_append] at h
      obtain ⟨between, later, after, rfl, hbetween, hloud, hhead⟩ := ih hof.2 h
      exact ⟨step :: between, later, after, rfl, List.forall_mem_cons.2 ⟨hmute, hbetween⟩,
        hloud, hhead⟩
    | false =>
      obtain ⟨first, ⟨tail, hleaves⟩, -⟩ := hof.1.keeps (w := w) hmute
      rw [hleaves] at h
      cases h
      exact ⟨[], step, steps, rfl, nofun, hmute, by rw [walkAlong_nil, hleaves]; rfl⟩

/-- Two leaves come from one step, where they are side by side, or from two steps, the last one
of the first and the first one of the second, and nothing is kept between. -/
def Neighbours (source : String) (w : Walk) (steps : List Step) (part other : Node) : Prop :=
  ∃ before step after, steps = before ++ step :: after ∧ step.isMute = false ∧
    ((∃ front back, step.leaves source (walkAlong source w before) = front ++ part ::
      other :: back) ∨ (step.leaves source (walkAlong source w before)).getLast? = some part ∧
      ∃ between later rest, after = between ++ later :: rest ∧
        (∀ step ∈ between, step.isMute) ∧ later.isMute = false ∧
        (later.leaves source (walkAlong source w (before ++ step :: between))).head? = some other)

theorem Neighbours.cons (h : Neighbours source (step.next source w) steps part other) :
    Neighbours source w (step :: steps) part other := by
  obtain ⟨before, first, after, rfl, hfirst, hrest⟩ := h
  exact ⟨step :: before, first, after, rfl, hfirst, hrest⟩

/-- So do all leaves that are side by side after the walk. -/
theorem leavesAlong_pair (hof : ∀ step ∈ steps, step.IsOf source)
    (h : leavesAlong source w steps = front ++ part :: other :: back) :
    Neighbours source w steps part other := by
  induction steps generalizing w front with
  | nil => simp at h
  | cons step steps ih =>
    rw [List.forall_mem_cons] at hof
    rw [leavesAlong_cons] at h
    have hloud : step.leaves source w ≠ [] → step.isMute = false := by
      intro hne
      cases hmute : step.isMute with
      | true => exact absurd (leaves_of_isMute hmute) hne
      | false => rfl
    rcases List.append_eq_append_iff.1 h with ⟨later, -, hlater⟩ | ⟨own, hown, hrest⟩
    · exact (ih hof.2 hlater).cons
    · rcases own with _ | ⟨first, _ | ⟨second, own⟩⟩
      · rw [List.nil_append, ← List.nil_append (part :: other :: back)] at hrest
        exact (ih hof.2 hrest.symm).cons
      · obtain ⟨rfl, hnext⟩ := List.cons.inj hrest
        obtain ⟨between, later, after, rfl, hbetween, hlater, hhead⟩ :=
          leavesAlong_head hof.2 hnext.symm
        have hlast : (step.leaves source w).getLast? = some part := by simp [hown]
        exact ⟨[], step, _, rfl, hloud (by simp [hown]), .inr ⟨hlast, between, later, after, rfl,
          hbetween, hlater, hhead⟩⟩
      · obtain ⟨rfl, hnext⟩ := List.cons.inj hrest
        obtain ⟨rfl, -⟩ := List.cons.inj hnext
        exact ⟨[], step, _, rfl, hloud (by simp [hown]), .inl ⟨front, own, hown⟩⟩

end Step

/-! ## Tokens that come together -/

/-- A space is put in between two tokens with these texts. -/
def asksForSpace (source : String) (first second : Token) : Bool :=
  (first.chars source).getLast?.any fun previous =>
    (second.chars source).head?.any fun next => needsSeparator previous next

/-- The steps lead from the one leaf to the other, and none between them leaves anything for the
second one. -/
def ComesQuietly (source : String) (steps : List Step) (first second : Node) : Prop :=
  ∃ before between after, steps = before ++ between ++ after ∧
    (Step.leavesAlong source {} before).getLast? = some first ∧
    (Step.leavesAlong source (Step.walkAlong source {} (before ++ between)) after).head? =
      some second ∧ ∀ step ∈ between, step.isQuiet source

section Tokens

variable {source : String} {w : Walk} {node : Node}
variable {token first second : Token}

/-- Where something waits, two tokens that need a space do not touch. -/
theorem keptTrivia_ne_empty {previous next : Char} (hwaits : w.pending.isEmpty = false)
    (hlast : w.lastChar = some previous) (hfirst : (leafText source node).toList.head? = some next)
    (hneeds : needsSeparator previous next) : keptTrivia source w node ≠ "" := by
  intro hnone
  rw [keptTrivia_eq, lead, hwaits, hlast, hfirst] at hnone
  split at hnone
  · simp at hnone
  · simp_all

theorem kind?_of_isLeafOf (h : IsLeafOf source node) : node.kind? = none := by
  cases node with
  | branch => cases h
  | _ => rfl

/-- A leaf of the source was read in some manner. -/
theorem IsLeafOf.readAs (h : IsLeafOf source (leaf token)) :
    ∃ m, token.ReadAs source m := by
  obtain ⟨original, hread, hkind, hspan⟩ := h
  obtain ⟨m, s, hs, hat⟩ := hread.readAs
  have hchars : token.chars source = original.chars source := by
    simp only [Token.chars, Node.text, Node.span, hspan]
  exact ⟨m, s, hs, by rw [hkind]; exact hat.kind, by rw [hchars]; exact hat.chars⟩

open Step in
/-- Where the walk keeps one token after another and passes over something between them, the
second one gets trivia, or they need no space, or nothing waits. -/
theorem neighbours_apart {steps : List Step}
    (hof : ∀ step ∈ steps, step.IsOf source)
    (h : Neighbours source {} steps (leaf first) (leaf second))
    (hgap : first.span.stop ≠ second.span.pos) :
    (IsLeafOf source (leaf first) ∧ IsLeafOf source (leaf second)) ∧
      ((leaf second).leadingTrivia source ≠ "" ∨ asksForSpace source first second = false ∨
        ComesQuietly source steps (leaf first) (leaf second)) := by
  obtain ⟨before, step, after, rfl, hloud, hpair⟩ := h
  simp only [List.forall_mem_append, List.forall_mem_cons] at hof
  obtain ⟨-, hstep, hafter⟩ := hof
  obtain ⟨node, hkeeps⟩ := hstep.keeps (w := walkAlong source {} before) hloud
  rcases hpair with ⟨front, back, hleaves⟩ | ⟨hlast, between, later, rest, rfl, hmute,
    hloud', hhead⟩
  · -- Tokens of one step lie side by side in the source.
    have hchain := hkeeps.adjacent
    rw [hleaves] at hchain
    exact absurd (List.isChain_append.1 hchain).2.1.rel.symm hgap
  · rw [List.forall_mem_append, List.forall_mem_cons] at hafter
    rw [walkAlong_append, walkAlong_cons] at hhead
    obtain ⟨hlastChar, hwaits⟩ : _ ∧ _ :=
      walkAlong_of_isMute (w := step.next source (walkAlong source {} before)) hmute
    generalize hw : walkAlong source (step.next source (walkAlong source {} before)) between = w
      at hhead hlastChar hwaits
    obtain ⟨node', hkeeps'⟩ := hafter.2.1.keeps (w := w) hloud'
    obtain ⟨tail, hopens⟩ := hkeeps'.opens
    rw [hopens] at hhead
    have hsecond : (visitLeaf source w node').node = leaf second := Option.some.inj hhead
    refine ⟨⟨hkeeps.isLeaves _ (List.mem_of_getLast? hlast), hkeeps'.isLeaves _ ?_⟩, ?_⟩
    · rw [hopens, hsecond]
      exact List.mem_cons_self
    · cases hspace : asksForSpace source first second with
      | false => exact .inr (.inl rfl)
      | true =>
        by_cases hquiet : ∀ step ∈ between, step.isQuiet source
        · right; right
          refine ⟨before ++ [step], between, later :: rest, by simp, ?_, ?_, hquiet⟩
          · rw [leavesAlong_append, leavesAlong_cons, leavesAlong_nil, List.append_nil,
              List.getLast?_append, hlast]
            rfl
          · rw [walkAlong_append, walkAlong_append, walkAlong_cons, walkAlong_nil, hw,
              leavesAlong_cons, hopens, hsecond]
            rfl
        · left
          rw [← hsecond, leadingTrivia_visitLeaf (kind?_of_isLeafOf hkeeps'.isLeaf)]
          obtain ⟨previous, hprevious, next, hnext, hneeds⟩ :
              ∃ previous ∈ (first.chars source).getLast?, ∃ next ∈ (second.chars source).head?,
                needsSeparator previous next := by
            simpa [asksForSpace, Option.any_eq_true] using hspace
          refine keptTrivia_ne_empty (hwaits (.inr ?_)) ?_ ?_ hneeds
          · simpa using hquiet
          · rw [hlastChar]
            exact hkeeps.lastChar _ hlast previous hprevious
          · rw [← leafText_visitLeaf (w := w), hsecond]
            exact hnext

end Tokens

end Erasure

/-- The first two of the leaves, if both are tokens. -/
def firstPair? : List Node → Option (Token × Token)
  | .leaf first :: .leaf second :: _ => some (first, second)
  | _ => none

theorem firstPair?_eq_some {leaves : List Node} {first second : Token}
    (h : firstPair? leaves = some (first, second)) :
    ∃ back, leaves = .leaf first :: .leaf second :: back := by
  unfold firstPair? at h
  split at h
  · cases h
    exact ⟨_, rfl⟩
  · cases h

open Erasure in
/-- Two tokens between which something was removed have trivia between them, or are read as these
two when they stand next to each other, or else one of two things holds: the question whether they
need a space is answered with no, or it is not asked, as nothing that was removed between them left
anything behind. -/
theorem SyntaxTree.erase_tokens_apart {variant : Variant} {file text : String} {tree : SyntaxTree}
    (hparse : SyntaxTree.parseAs variant file text = .ok tree) (options : Options)
    {front back : List Node} {first second : Token}
    (hleaves : (tree.erase options).tree.root.leaves = front ++ leaf first :: leaf second :: back)
    (hgap : first.span.stop ≠ second.span.pos) :
    ∃ m n, first.ReadAs text m ∧ second.ReadAs text n ∧
      ((leaf second).leadingTrivia text ≠ "" ∨ Token.ReadApart text m n first second ∨
        Token.mayFuse text m first second = true ∧ (asksForSpace text first second = false ∨
          ComesQuietly text (steps (.ofTree options text tree.root) .none tree.root)
            (leaf first) (leaf second))) := by
  obtain ⟨rfl, htiles, -⟩ := SyntaxTree.parseAs_tiles hparse
  have hof := steps_isOf (s := .ofTree options tree.source tree.root) tree.root .none htiles
  rw [leaves_erase] at hleaves
  obtain ⟨⟨hfirst, hsecond⟩, hapart⟩ :=
    neighbours_apart hof (Step.leavesAlong_pair hof hleaves) hgap
  obtain ⟨m, hm⟩ := hfirst.readAs
  obtain ⟨n, hn⟩ := hsecond.readAs
  refine ⟨m, n, hm, hn, ?_⟩
  cases hfuse : Token.mayFuse tree.source m first second with
  | false => exact .inr (.inl (Token.readApart_of_not_mayFuse hm hn hfuse))
  | true => exact hapart.imp_right fun hquiet => .inr ⟨rfl, hquiet⟩

open Erasure in
/-- A cast in front of an operand gives way to a space. -/
theorem SyntaxTree.erase_tokens_apart_typeof :
    ∃ tree front back first second,
      SyntaxTree.parseAs .standard "a.ts" "typeof<any>a" = .ok tree ∧
        (tree.erase {}).tree.root.leaves = front ++ leaf first :: leaf second :: back ∧
        first.span.stop ≠ second.span.pos ∧
        ∃ m n, first.ReadAs "typeof<any>a" m ∧ second.ReadAs "typeof<any>a" n ∧
          ((leaf second).leadingTrivia "typeof<any>a" ≠ "" ∨
            Token.ReadApart "typeof<any>a" m n first second ∨
            Token.mayFuse "typeof<any>a" m first second = true ∧
              (asksForSpace "typeof<any>a" first second = false ∨
                ComesQuietly "typeof<any>a"
                  (steps (.ofTree {} "typeof<any>a" tree.root) .none tree.root)
                  (leaf first) (leaf second))) := by
  obtain ⟨tree, hparse, ⟨first, second⟩, hpair, hgap⟩ : ∃ tree,
      SyntaxTree.parseAs .standard "a.ts" "typeof<any>a" = .ok tree ∧
      ∃ pair ∈ firstPair? (tree.erase {}).tree.root.leaves, pair.1.span.stop ≠ pair.2.span.pos :=
    SyntaxTree.exists_checked (by decide +kernel)
  obtain ⟨back, hleaves⟩ := firstPair?_eq_some hpair
  rw [← List.nil_append (leaf first :: _)] at hleaves
  exact ⟨tree, [], back, first, second, hparse, hleaves, hgap,
    SyntaxTree.erase_tokens_apart hparse {} hleaves hgap⟩

open Erasure in
/-- A mark between a name and a keyword leaves nothing behind, and the two become one name. -/
theorem SyntaxTree.erase_fuses_tokens :
    ∃ tree front back first second,
      SyntaxTree.parseAs .standard "a.ts" "a!in b" = .ok tree ∧
        (tree.erase {}).tree.root.leaves = front ++ leaf first :: leaf second :: back ∧
        first.span.stop ≠ second.span.pos ∧ (leaf second).leadingTrivia "a!in b" = "" ∧
        (∀ m n, ¬Token.ReadApart "a!in b" m n first second) ∧
        (tree.erase {}).tree.text = "ain b" := by
  obtain ⟨tree, hparse, ⟨⟨first, second⟩, hpair, hgap, htrivia, hfirst, hsecond⟩, htext⟩ : ∃ tree,
      SyntaxTree.parseAs .standard "a.ts" "a!in b" = .ok tree ∧
      (∃ pair ∈ firstPair? (tree.erase {}).tree.root.leaves, pair.1.span.stop ≠ pair.2.span.pos ∧
        (leaf pair.2).leadingTrivia "a!in b" = "" ∧ pair.1.chars "a!in b" = ['a'] ∧
          pair.2.chars "a!in b" = ['i', 'n']) ∧ (tree.erase {}).tree.text = "ain b" :=
    SyntaxTree.exists_checked (by decide +kernel)
  obtain ⟨back, hleaves⟩ := firstPair?_eq_some hpair
  refine ⟨tree, [], back, first, second, hparse, hleaves, hgap, htrivia, ?_, htext⟩
  intro m n hapart
  have hread := hapart.1.chars
  rw [hfirst, hsecond] at hread
  revert hread
  cases m <;> decide +kernel

end Untype
