-- What the rules promise holds of every run. The statements of a file cover
-- its text, and the end of the text is taken once, after all of them.
import Untype.Proofs.Anatomy.Statements

namespace Untype

open Untype.Node Untype.Grammar Untype.Grammar.Parser

namespace Grammar

variable {α : Type} {text : Source} {r : Rules} {g : Level} {j : Nat}
  {pre : Scanner → Prop} {p : Parser α} {took : α → Prop} {post : α → Nat → Scanner → Prop}
variable {context : Context} {state state' : State}

/-- The parser stays in the text, and what is promised holds of its answers. -/
abbrev Parser.Keeps (text : Source) (p : Parser α) (context : Context) (state : State)
    (post : α → Nat → Scanner → Prop) : Prop :=
  p.Ends context state fun value state' =>
    text.Reaches state'.scanner ∧ post value state'.offset state'.scanner

/-- Each production covers what it reads, does not take the end of the text, keeps to its limit and
has the shape of its kind. An expression starts where it is read. -/
def Rules.Fit (text : Source) (r : Rules) : Prop :=
  ∀ production context state, text.Reaches state.scanner →
    (r production).Keeps text context state fun node k s =>
      (node.Fits text (production.limit context.depth) state.offset ∧ node.span.stop = k) ∧
        production.Brings context.disallowIn node s ∧ Leads state.scanner node.firstLeaf

/-- A run may start here: the context is at the level, and the scanner came to the offset, where
`pre` holds of it. -/
structure Parser.Starts (text : Source) (g : Level) (j : Nat) (pre : Scanner → Prop)
    (context : Context) (state : State) : Prop where
  depth : context.depth = g.depth
  noIn : context.disallowIn = g.noIn
  reached : text.Reaches state.scanner
  offset : state.offset = j
  known : pre state.scanner

namespace Parser.Starts

variable {pre' : Scanner → Prop} {rank : Nat}

variable (h : Starts text g j pre context state)

include h

theorem next (hreached : text.Reaches state'.scanner)
    (hpre : pre' state'.scanner) : Starts text { g with rank } state'.offset pre' context state' :=
  ⟨h.depth, h.noIn, hreached, rfl, hpre⟩

theorem weaken (hpre : ∀ s, pre s → pre' s) :
    Starts text { g with rank } j pre' context state :=
  ⟨h.depth, h.noIn, h.reached, h.offset, hpre _ h.known⟩

theorem still : Starts text g.still j pre context state :=
  h.weaken fun _ => id

theorem within {change : Context → Context} {noIn : Bool}
    (hchange : Context.Allows change g.noIn noIn) :
    Starts text { g with noIn } j pre (change context) state :=
  ⟨(hchange context).1.trans h.depth, (hchange context).2.2.1 h.noIn, h.reached, h.offset, h.known⟩

theorem deeper :
    Starts text g.deeper j pre { context with depth := context.depth + 1 } state :=
  ⟨congrArg (· + 1) h.depth, h.noIn, h.reached, h.offset, h.known⟩

end Parser.Starts

/-- What is promised of a parser holds of its answers. -/
theorem Parser.Made.ends (h : Made text r g j pre p took post) (hr : r.Fit text) (context : Context)
    (state : State) (hs : Starts text g j pre context state) : p.Keeps text context state post := by
  induction h generalizing context state with
  | answer _ h => exact .pure ⟨hs.reached, hs.offset ▸ h _ hs.known⟩
  | @chain _ _ _ _ _ took' _ _ _ _ _ _ _ _ ih ihtaken ihother =>
    refine .bind fun value state' hfirst => ?_
    obtain ⟨hreached, hmid⟩ := ih context state hs value state' hfirst
    by_cases hvalue : took' value
    · exact ihtaken value _ hvalue context state' (hs.next hreached hmid)
    · exact ihother value _ hvalue context state' (hs.next hreached hmid)
  | look h =>
    rintro _ _ ⟨⟩
    exact ⟨hs.reached, hs.offset ▸ h _ hs.known⟩
  | ground _ _ ih => exact .askContext (ih context hs.noIn context state hs)
  | fail => exact .fail
  | take _ h | takeAs _ h =>
    rintro _ _ ⟨⟩
    exact ⟨hs.reached.scan, h _ hs.reached hs.offset hs.known⟩
  | takeJsx _ h =>
    rintro _ _ ⟨⟩
    refine ⟨hs.reached.scanJsx, ?_⟩
    rw [State.offset, Scanner.scanJsx_full]
    exact h _ hs.reached hs.offset hs.known
  | reread _ hadvance h =>
    rintro _ _ ⟨⟩
    refine ⟨hs.reached.reread hadvance, ?_⟩
    rw [State.offset, (hadvance.place _).1, ← State.offset, hs.offset]
    exact h _ hs.known
  | within hchange _ ih => exact .within (ih _ state (hs.within hchange))
  | nested _ ih => exact .nested fun hroom => ih (hs.depth ▸ hroom) _ state hs.deeper
  | attempt _ hsome hnone ih =>
    intro found state' hdone
    rcases attempt_done.1 hdone with ⟨value, rfl, hvalue⟩ | ⟨rfl, _, _, -, rfl⟩
    · exact (ih context state hs.still value state' hvalue).imp_right (hsome value _ _)
    · exact ⟨hs.reached, hs.offset ▸ hnone _ hs.known⟩
  | attemptArrow _ hsome hnone ih =>
    intro found state' hdone
    rcases attemptArrow_done hdone with ⟨value, rfl, hvalue⟩ | ⟨rfl, hsame⟩
    · exact (ih context state hs.still value state' hvalue).imp_right (hsome value _ _)
    · rw [State.offset, hsame, ← State.offset, hs.offset]
      exact ⟨hs.reached, hnone _ hs.known⟩
  | loop inv hfirst _ ih =>
    refine .loop (fun value state => text.Reaches state.scanner ∧
      inv value state.offset state.scanner) ⟨hs.reached, hs.offset ▸ hfirst _ hs.known⟩
      fun value state hstate => ?_
    refine (ih value _ context state (hs.next hstate.1 hstate.2)).mono
      fun result state' hresult => ?_
    cases result with
    | again value | finish result => exact hresult
  | rule _ h =>
    intro node state' hdone
    obtain ⟨hreached, ⟨hfits, hstop⟩, hbrings, hopens⟩ :=
      hr _ context state hs.reached node state' hdone
    rw [hs.depth, hs.offset] at hfits
    exact ⟨hreached, hstop ▸ h _ node _ hs.reached hs.known hopens hfits (hs.noIn ▸ hbrings)⟩
  | weaken _ hpre _ hpost ih =>
    exact (ih context state (hs.weaken hpre)).mono fun value state' =>
      And.imp_right (hpost value _ _)
  | given hknown _ ih => exact ih (hknown _ hs.known) context state hs

theorem rules_fit (text : Source) (fuel : Nat) : (rules fuel).Fit text := by
  induction fuel generalizing text with
  | zero => exact fun _ _ _ _ _ _ hdone => (stall_done.1 hdone).elim
  | succ fuel ih =>
    intro production context state hreached node state' hdone
    obtain ⟨hreached', hfits, hbrings⟩ := (rules_bring fuel production).ends (ih text) context state
      ⟨rfl, rfl, hreached, rfl, trivial⟩ node state' hdone
    -- The same node, read from where the production starts.
    obtain ⟨-, ⟨hfirst, -⟩, -⟩ :=
      (rules_bring fuel production).ends (ih ⟨text, state.scanner⟩) context
      state ⟨rfl, rfl, .of_reached hreached.reached, rfl, trivial⟩ node state' hdone
    exact ⟨hreached', hfits, hbrings, hfirst.leads⟩

/-! ## The end of the text -/

theorem manyUntil_stops {stop : Scanner → Bool} {item : Parser Node} {state : State}
    {nodes : List Node} (h : manyUntil stop item context state = .done nodes state') :
    stop state'.scanner := by
  obtain ⟨seen, state'', hturn⟩ := loopFrom_done h
  obtain ⟨stopped, _, hask, hrest⟩ := bind_done.1 hturn
  cases hask
  split at hrest
  · cases hrest
    assumption
  · obtain ⟨_, _, _, hagain⟩ := bind_done.1 hrest
    cases hagain

theorem statements_stand {depth : Nat} {noIn : Bool} (fuel : Nat) :
    (manyUntil (·.kind == .endOfFile) (rules fuel .statement)).YieldsEach text (rules fuel)
      ⟨topRank, depth, noIn⟩ inside j (fun _ => True) Stands :=
  manyUntil_each fun _ => inner_such rfl

/-- The statements of a file with the end of its text. -/
theorem regular_sourceFile {limit : NodeKind → Nat} [hlimit : Plain limit] {statements : List Node}
    {token : Token} (h : AllFit text limit j statements)
    (hstand : ∀ node ∈ statements, Stands node) :
    (group .sourceFile (statements ++ [leaf token])).Regular text := by
  have hsound := (allFit_iff.1 h).1
  refine .group (fun node hnode => ?_) (fun _ node hnode => ?_) ?_
  · rcases List.mem_append.1 hnode with hnode | hnode
    · exact (hsound node hnode).regular
    · exact List.mem_singleton.1 hnode ▸ regular_leaf token
  · rcases List.mem_append.1 hnode with hnode | hnode
    · exact (hstand node hnode).1
    · exact List.mem_singleton.1 hnode ▸ rfl
  · rintro ⟨node, hnode, hclause⟩
    rcases List.mem_append.1 hnode with hnode | hnode
    · exact absurd ((hsound node hnode).apart hclause) (by simp [hlimit.heritage])
    · rw [List.mem_singleton.1 hnode] at hclause
      cases hclause

/-- A file is read from its first byte to its last, and the end of the text is its last leaf. Each
of its nodes has the shape of its kind. -/
theorem sourceFile_fits {text : String} {fuel : Nat} {root : Node}
    (h : sourceFile (rules fuel) context ⟨Scanner.ofText text, []⟩ = .done root state') :
    ∃ statements token, root = group .sourceFile (statements ++ [leaf token]) ∧
      token.kind = .endOfFile ∧
        AllFit ⟨text, (Scanner.ofText text).scan⟩ (inside context.depth) 0 statements ∧
        root.Tiles text 0 text.utf8ByteSize ∧ state'.scanner.Reached text ∧ root.Regular text := by
  obtain ⟨_, start, hstart, h⟩ := bind_done.1 h
  cases hstart
  obtain ⟨statements, state, hstatements, h⟩ := bind_done.1 h
  obtain ⟨stop, state'', hstop, h⟩ := bind_done.1 h
  cases hstop
  cases h
  obtain ⟨hreached, ⟨hfit, hstand⟩, hoffset⟩ := (statements_stand fuel).ends (rules_fit _ fuel)
    context ⟨(Scanner.ofText text).scan, []⟩ ⟨rfl, rfl, .of_reached .start, rfl,
      trivial⟩ _ _ hstatements
  replace hreached := hreached.reached
  have hkind : state.scanner.kind = .endOfFile := by simpa using manyUntil_stops hstatements
  have hend : state.scanner.here.offset = text.utf8ByteSize :=
    hreached.fits.toHere.at_end (hreached.fits.ends hkind)
  have htiles := (allFit_iff.1 hfit).2
  have hleaf : (leafOf state.scanner.kind state.scanner).Tiles text state.offset _ :=
    tiles_leafOf hreached (.inl rfl)
  rw [hend, ← hoffset] at hleaf
  exact ⟨statements, _, rfl, hkind, hfit, (htiles.append hleaf.single).group _ (by simp),
    hreached.scan, regular_sourceFile hfit hstand⟩

end Grammar

theorem Token.Read.nonempty {text : String} {token : Token} (h : token.Read text)
    (hkind : token.kind ≠ .endOfFile) : token.span.start < token.span.stop := by
  obtain ⟨s, hs, hread, hspan⟩ := h.reading
  rw [hspan]
  refine hs.moves fun hend => ?_
  rcases hread with hsame | ⟨-, hword⟩
  · exact hkind (hsame.trans hend)
  · rw [hend] at hword
    cases hword

namespace SyntaxTree

variable {variant : Variant} {file text : String} {tree : SyntaxTree}

/-- The tree of a text is what the grammar makes of it. -/
theorem exists_of_parseAs (h : parseAs variant file text = .ok tree) :
    ∃ root state, tree = ⟨file, text, variant, root, state.scanner.findings⟩ ∧
      sourceFile (rules (recursionBudget text)) (Context.ofText variant text)
        ⟨Scanner.ofText text, []⟩ = .done root state := by
  unfold parseAs parseFrom at h
  dsimp only at h
  split at h
  · rename_i root state hdone
    cases h
    exact ⟨root, state, rfl, hdone⟩
  · cases h
  · cases h

theorem lacksEnd_of_parseAs (h : parseAs variant file text = .ok tree) :
    ∀ leaf ∈ tree.root.leaves.dropLast, leaf.isToken .endOfFile = false := by
  obtain ⟨root, state, rfl, hdone⟩ := exists_of_parseAs h
  obtain ⟨statements, token, rfl, -, hstatements, -⟩ := sourceFile_fits hdone
  intro part hpart
  rw [group, leaves, leavesOf_append] at hpart
  change part ∈ (leavesOf _ ++ [leaf token]).dropLast at hpart
  rw [List.dropLast_concat] at hpart
  obtain ⟨statement, hstatement, hpart⟩ := mem_leavesOf.1 hpart
  exact (((allFit_iff.1 hstatements).1 statement hstatement).taken part hpart).1

section Checked

variable {result : Except ParseError SyntaxTree} {holds rest : SyntaxTree → Prop}
  [DecidablePred holds]

theorem exists_checked (h : result.toOption.any fun tree => holds tree) :
    ∃ tree, result = .ok tree ∧ holds tree := by
  cases result with
  | error error => simp [Except.toOption] at h
  | ok tree => exact ⟨tree, rfl, by simpa [Except.toOption] using h⟩

theorem exists_checked_and (h : result.toOption.any fun tree => holds tree)
    (hrest : ∀ tree, result = .ok tree → holds tree → rest tree) :
    ∃ tree, result = .ok tree ∧ holds tree ∧ rest tree := by
  obtain ⟨tree, hresult, htree⟩ := exists_checked h
  exact ⟨tree, hresult, htree, hrest tree hresult htree⟩

theorem exists_parsed (h : result.toOption.isSome) (hrest : ∀ tree, result = .ok tree → rest tree) :
    ∃ tree, result = .ok tree ∧ rest tree := by
  cases result with
  | error error => cases h
  | ok tree => exact ⟨tree, rfl, hrest tree rfl⟩

end Checked

end SyntaxTree

end Untype
