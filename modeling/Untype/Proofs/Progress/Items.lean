-- What loops repeat. Each item takes a token that is not empty, and what looks
-- ahead for one token after the other comes to the end of the text in time.
import Untype.Proofs.Anatomy.Ends

namespace Untype

open Untype.Node Untype.Grammar Untype.Grammar.Parser

/-! ## Tokens that are taken -/

variable {text : Source} {node : Node} {nodes : List Node} {i j : Nat}

theorem Node.TileAll.le (h : TileAll text nodes i j) : i ≤ j := by
  cases nodes with
  | nil => exact Nat.le_of_eq (tileAll_nil.1 h)
  | cons node nodes =>
    obtain ⟨hpos, hstop, hlies⟩ := h.lies (List.cons_ne_nil _ _)
    have := hlies.pos_le
    have := hlies.start_le
    omega

/-- The first token of the node starts at the first offset, is not empty and ends no later than the
second one. -/
def Node.TakesToken (node : Node) (i j : Nat) : Prop :=
  ∃ token, node.leaves.head? = some (leaf token) ∧ token.span.pos = i ∧
    token.span.start < token.span.stop ∧ token.span.stop ≤ j

theorem Node.Tiles.takesToken (h : node.Tiles text i j) (htaken : node.Taken text) :
    node.TakesToken i j := by
  obtain ⟨hne, hleaves⟩ := h.leaves
  obtain ⟨first, rest, hfirst⟩ := List.exists_cons_of_ne_nil hne
  obtain ⟨token, rfl, hread⟩ := h.mem_leaves first (hfirst ▸ List.mem_cons_self)
  obtain ⟨k, htoken, hrest⟩ := tileAll_cons.1 (hfirst ▸ hleaves)
  obtain ⟨hpos, hstop, -⟩ := htoken.lies
  have hkind : token.kind ≠ .endOfFile := by
    simpa [isToken, token?] using (htaken (leaf token) (hfirst ▸ List.mem_cons_self)).1
  exact ⟨token, by rw [hfirst, List.head?_cons], hpos, hread.nonempty hkind,
    Nat.le_trans (Nat.le_of_eq hstop) hrest.le⟩

namespace Grammar

variable {r : Rules} {g : Level}

/-! ## Items -/

/-- A child of an element that starts with a token of this kind. -/
def jsxChildAt (r : Rules) : TokenKind → Parser Node
  | .jsxText => eatJsx
  | .openBrace => jsxExpression r false
  | .lessThan => r (.jsxElement false)
  | _ => failExpected "</"

/-- One child of an element. -/
def jsxChild (r : Rules) : Parser Node := do jsxChildAt r (← kind)

/-- What the grammar repeats: the items of its lists, bodies and blocks. -/
inductive Item where
  | statement
  | classMember
  | typeMember
  | parameter
  | argument
  | objectBinding
  | arrayBinding
  | jsxAttribute
  | jsxChild
  | objectElement
  | enumMember
  | typeParameter
  | typeArgument
  | tupleMember
  | heritageType
  | variableDeclaration
  | caseClause
  | importAttribute
  | specifier (kind : NodeKind)
deriving DecidableEq, Repr

/-- The parser of an item. -/
def itemParser (r : Rules) : Item → Parser Node
  | .statement => r .statement
  | .classMember => nested (classMember r)
  | .typeMember => nested (typeMember r)
  | .parameter => parameter r
  | .argument => argument r
  | .objectBinding => objectBinding r
  | .arrayBinding => arrayBinding r
  | .jsxAttribute => jsxAttribute r
  | .jsxChild => jsxChild r
  | .objectElement => nested (objectElement r)
  | .enumMember => enumMember r
  | .typeParameter => typeParameter r
  | .typeArgument => fullType r
  | .tupleMember => nested (tupleMember r)
  | .heritageType => heritageType r
  | .variableDeclaration => variableDeclaration r
  | .caseClause => caseClause r
  | .importAttribute => importAttribute r
  | .specifier kind => specifier kind

theorem jsxChild_yields [g.IsTop] : (jsxChild r).Yields text r g inside i fun _ => True := by
  refine .kind fun kind => ?_
  unfold jsxChildAt
  split
  · exact eatJsx_yields (.at rfl)
  · exact jsxExpression_yields (.at rfl)
  · exact inner_yields rfl
  · exact .failExpected

/-- The node covers what was read between two offsets, and the end of the text is no part of it. -/
def Covered (text : Source) (i : Nat) (node : Node) (k : Nat) (_ : Scanner) : Prop :=
  node.Tiles text i k ∧ node.Taken text

theorem Parser.Made.covered {limit : Nat → NodeKind → Nat} {pre : Scanner → Prop}
    {p : Parser Node} (h : p.Yields text r g limit i pre) :
    p.Made text r g i pre Always (Covered text i) :=
  h.allowing fun _ _ _ hnode => ⟨hnode.2 ▸ hnode.1.tiles, hnode.1.taken⟩

/-- An item covers what it reads, and the end of the text is no part of it. -/
theorem itemParser_covers (r : Rules) (g : Level) (item : Item) :
    (itemParser r item).Made text r g.top i (fun _ => True) Always (Covered text i) := by
  cases item with
  | statement => exact .covered (inner_yields rfl)
  | classMember => exact .nested fun _ => .covered classMember_yields
  | typeMember => exact .nested fun _ => .covered typeMember_yields
  | parameter => exact .covered parameter_yields
  | argument => exact .covered argument_yields
  | objectBinding => exact .covered objectBinding_yields
  | arrayBinding => exact .covered arrayBinding_yields
  | jsxAttribute => exact .covered jsxAttribute_yields
  | jsxChild => exact .covered jsxChild_yields
  | objectElement => exact .nested fun _ => .covered objectElement_yields
  | enumMember => exact .covered enumMember_yields
  | typeParameter => exact .covered typeParameter_yields
  | typeArgument => exact .covered fullType_yields
  | tupleMember => exact .nested fun _ => .covered tupleMember_yields
  | heritageType => exact .covered heritageType_yields
  | variableDeclaration => exact .covered variableDeclaration_yields
  | caseClause => exact .covered caseClause_yields
  | importAttribute => exact .covered importAttribute_yields
  | specifier kind =>
    refine specifier_made.allowing fun node k _ => ?_
    rintro ⟨nodes, rfl, hne, hnodes, rfl⟩
    obtain ⟨hsound, htiles⟩ := allFit_iff.1 hnodes
    exact ⟨htiles.group kind hne, taken_branch.2 fun node hnode => (hsound node hnode).taken⟩

theorem takesToken_of_itemParser (item : Item) (fuel : Nat) {context : Context}
    {state state' : State} {text : String} (hreached : state.scanner.Reached text)
    (hdone : itemParser (rules fuel) item context state = .done node state') :
    node.TakesToken state.offset state'.offset := by
  let level : Level := ⟨0, context.depth, context.disallowIn⟩
  obtain ⟨-, htiles, htaken⟩ := (itemParser_covers (rules fuel) level item).ends (rules_fit _ fuel)
    context state ⟨rfl, rfl, .of_reached hreached, rfl, trivial⟩ node state' hdone
  exact htiles.takesToken htaken

end Grammar

/-! ## Looking ahead -/

namespace Scanner

variable {fuel : Nat}

/-- What looks at one token after the other until it answers, at the latest at the end of the text,
gives one answer however much fuel it has beyond the tokens ahead. -/
theorem lookAhead_stable {α : Type} (look : Nat → Scanner → α)
    (hend : ∀ s n m, s.kind = .endOfFile → look (n + 1) s = look (m + 1) s)
    (hstep : ∀ s n m, look n s.scan = look m s.scan → look (n + 1) s = look (m + 1) s)
    (s : Scanner) {n m : Nat} (hn : s.tokensAhead ≤ n) (hm : s.tokensAhead ≤ m) :
    look n s = look m s := by
  -- The measure is what is left behind the current token; it shrinks until the end is the token.
  induction hlength : s.here.rest.length using Nat.strong_induction_on generalizing s n m with
  | _ length ih =>
    unfold tokensAhead at hn hm
    obtain ⟨n, rfl⟩ : ∃ k, n = k + 2 := ⟨n - 2, by omega⟩
    obtain ⟨m, rfl⟩ : ∃ k, m = k + 2 := ⟨m - 2, by omega⟩
    refine hstep s _ _ ?_
    by_cases hkind : s.scan.kind = .endOfFile
    · exact hend s.scan n m hkind
    · have hshorter := scan_shortens hkind
      exact ih _ (by omega) s.scan (by unfold tokensAhead; omega) (by unfold tokensAhead; omega) rfl

theorem startsDeclarationFrom_stable (s : Scanner) (h : s.tokensAhead ≤ fuel) :
    startsDeclarationFrom fuel s = s.startsDeclaration := by
  refine lookAhead_stable _ (fun s n m hkind => ?_) (fun s n m hscan => ?_) s h (Nat.le_refl _)
  · simp [startsDeclarationFrom, hkind]
  · simp [startsDeclarationFrom, hscan]

theorem skipParameterModifiers_stable (s : Scanner) (h : s.tokensAhead ≤ fuel) :
    skipParameterModifiers fuel s = skipParameterModifiers s.tokensAhead s := by
  refine lookAhead_stable _ (fun s n m hkind => ?_) (fun s n m hscan => ?_) s h (Nat.le_refl _)
  · have hmodifier : TokenKind.endOfFile.isModifier = false := by decide
    simp [skipParameterModifiers, hkind, hmodifier]
  · simp [skipParameterModifiers, hscan]

theorem skipPattern_stable (s : Scanner) (h : s.tokensAhead ≤ fuel) (depth : Nat) :
    skipPattern fuel depth s = skipPattern s.tokensAhead depth s := by
  have hstable : (fun depth => skipPattern fuel depth s) =
      fun depth => skipPattern s.tokensAhead depth s := by
    refine lookAhead_stable (fun fuel s depth => skipPattern fuel depth s)
      (fun s n m hkind => ?_) (fun s n m hscan => ?_) s h (Nat.le_refl _)
    · funext depth
      simp [skipPattern, hkind]
    · funext depth
      have hscan : ∀ depth, skipPattern n depth s.scan = skipPattern m depth s.scan :=
        congrFun hscan
      simp [skipPattern, hscan]
  exact congrFun hstable depth

end Scanner

end Untype
