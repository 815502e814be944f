-- What the nodes that a parser makes have in common: the end of the text is
-- no part of them, each has the shape of its kind, and they lie in each other
-- no deeper than there is room at the depth of the parser.
import Untype.Proofs.Anatomy.Leading
import Untype.Proofs.Shapes.Operators

namespace Untype

/-- Whatever lies in a node of these kinds was read at least one level deeper. -/
@[simp]
def NodeKind.guarded : List NodeKind :=
  [.parenthesizedExpression, .arrayLiteralExpression, .objectLiteralExpression, .block,
    .arrowFunction, .jsxElement, .typeLiteral, .tupleType, .parenthesizedType]

/-- Clauses of heritage, and what they belong to. -/
@[simp]
def NodeKind.familial : List NodeKind :=
  [.heritageClause, .classDeclaration, .classExpression, .interfaceDeclaration]

namespace Node

/-- The nodes on a way down from a node, each a child of the one before. -/
def WayDown (node : Node) (way : List Node) : Prop :=
  way.head? = some node ∧ way.IsChain fun parent child => child ∈ parent.children

/-- No way down meets more guarded nodes of one kind than the limit says. -/
def Keeps (limit : NodeKind → Nat) (node : Node) : Prop :=
  ∀ way, node.WayDown way → ∀ kind ∈ NodeKind.guarded, way.countP (isKind kind) ≤ limit kind

variable {text : Source} {limit limit' : NodeKind → Nat} {node : Node} {nodes others : List Node}
  {kind : NodeKind} {i j : Nat}

/-- A way ends where it starts, or goes on from a child. -/
theorem wayDown_iff {way : List Node} : node.WayDown way ↔
    way = [node] ∨ ∃ child ∈ node.children, ∃ rest, child.WayDown rest ∧ way = node :: rest := by
  constructor
  · rintro ⟨hhead, hchain⟩
    obtain ⟨rest, rfl⟩ := List.head?_eq_some_iff.1 hhead
    cases rest with
    | nil => exact .inl rfl
    | cons child rest =>
      obtain ⟨hchild, hrest⟩ := List.isChain_cons_cons.1 hchain
      exact .inr ⟨child, hchild, child :: rest, ⟨rfl, hrest⟩, rfl⟩
  · rintro (rfl | ⟨child, hchild, rest, ⟨hhead, hchain⟩, rfl⟩)
    · exact ⟨rfl, List.isChain_singleton _⟩
    · obtain ⟨rest, rfl⟩ := List.head?_eq_some_iff.1 hhead
      exact ⟨rfl, List.isChain_cons_cons.2 ⟨hchild, hchain⟩⟩

theorem Keeps.mono (h : node.Keeps limit) (hle : ∀ kind, limit kind ≤ limit' kind) :
    node.Keeps limit' :=
  fun way hway kind hkind => Nat.le_trans (h way hway kind hkind) (hle kind)

theorem keeps_leaf {token : Token} : (leaf token).Keeps limit := by
  intro way hway kind _
  rcases wayDown_iff.1 hway with rfl | ⟨child, hchild, -⟩
  · simp [isKind, kind?]
  · cases hchild

/-- A node of a kind that does not count has what its children have. -/
theorem keeps_group (hkind : kind ∉ NodeKind.guarded) :
    (group kind nodes).Keeps limit ↔ ∀ node ∈ nodes, node.Keeps limit := by
  have hother : ∀ kind' ∈ NodeKind.guarded, (group kind nodes).isKind kind' = false := by
    intro kind' hkind'
    refine beq_eq_false_iff_ne.2 fun heq => ?_
    cases heq
    exact hkind hkind'
  constructor
  · intro h node hnode way hway kind' hkind'
    have hcount := h _ (wayDown_iff.2 (.inr ⟨node, hnode, way, hway, rfl⟩)) kind' hkind'
    rwa [List.countP_cons_of_neg (by simp [hother kind' hkind'])] at hcount
  · intro h way hway kind' hkind'
    rcases wayDown_iff.1 hway with rfl | ⟨child, hchild, rest, hrest, rfl⟩
    · simp [hother kind' hkind']
    · rw [List.countP_cons_of_neg (by simp [hother kind' hkind'])]
      exact h child hchild rest hrest kind' hkind'

/-- A node of a kind that counts is one more than its children have. -/
theorem Keeps.group (h : ∀ node ∈ nodes, node.Keeps limit) (hle : ∀ kind, limit kind ≤ limit' kind)
    (hlt : limit kind < limit' kind) : (Node.group kind nodes).Keeps limit' := by
  intro way hway kind' hkind'
  have hnode : (if (Node.group kind nodes).isKind kind' then 1 else 0) + limit kind' ≤
      limit' kind' := by
    split
    · rename_i heq
      cases beq_iff_eq.1 heq
      omega
    · exact (Nat.zero_add _).symm ▸ hle kind'
  rcases wayDown_iff.1 hway with rfl | ⟨child, hchild, rest, hrest, rfl⟩
  · rw [List.countP_singleton]
    omega
  · have hcount := h child hchild rest hrest kind' hkind'
    rw [List.countP_cons]
    omega

theorem Keeps.children (h : node.Keeps limit) {child : Node} (hchild : child ∈ node.children) :
    child.Keeps limit := by
  intro way hway kind hkind
  have hcount := h _ (wayDown_iff.2 (.inr ⟨child, hchild, way, hway, rfl⟩)) kind hkind
  rw [List.countP_cons] at hcount
  omega

/-! ## Leaves -/

/-- The end of the text is not among the leaves. What stands first is where the reader starts. -/
def Taken (text : Source) (node : Node) : Prop :=
  ∀ part ∈ node.leaves, part.isToken .endOfFile = false ∧
    (part.span.pos = text.start.full.offset → Grammar.Leads text.start part)

theorem taken_branch {span : Span} {marks : Marks} :
    (branch kind span marks nodes).Taken text ↔ ∀ node ∈ nodes, node.Taken text := by
  simp only [Taken, leaves, mem_leavesOf]
  constructor
  · exact fun h node hnode part hpart => h part ⟨node, hnode, hpart⟩
  · rintro h part ⟨node, hnode, hpart⟩
    exact h node hnode part hpart

/-! ## Nodes side by side -/

/-- Where nodes side by side that start at an offset come to their end. -/
def stopOf (i : Nat) (nodes : List Node) : Nat := nodes.foldl (fun _ node => node.span.stop) i

@[simp]
theorem stopOf_nil : stopOf i [] = i := rfl

@[simp]
theorem stopOf_cons : stopOf i (node :: nodes) = stopOf node.span.stop nodes := rfl

@[simp]
theorem stopOf_append : stopOf i (nodes ++ others) = stopOf (stopOf i nodes) others :=
  List.foldl_append

@[simp]
theorem stop_group : (group kind nodes).span.stop = stopOf 0 nodes := by
  cases nodes using List.reverseRec with
  | nil => rfl
  | append_singleton nodes node =>
    rw [stopOf_append]
    simp [group, span, spanOf]

@[simp]
theorem stopOf_eq_stopOf : stopOf i nodes = stopOf j nodes ↔ (nodes = [] → i = j) := by
  cases nodes <;> simp

theorem TileAll.stopOf {text : String} (h : TileAll text nodes i j) : Node.stopOf i nodes = j := by
  induction nodes generalizing i with
  | nil => exact tileAll_nil.1 h
  | cons node nodes ih =>
    obtain ⟨k, hnode, hnodes⟩ := tileAll_cons.1 h
    rw [stopOf_cons, hnode.lies.2.1]
    exact ih hnodes

/-- The end of the text is no part of the node. It keeps to the limit and is regular, and it is a
clause of heritage only if the limit has room for one. -/
structure Sound (text : Source) (limit : NodeKind → Nat) (node : Node) : Prop where
  taken : node.Taken text
  keeps : node.Keeps limit
  regular : node.Regular text
  apart : node.isKind .heritageClause → 0 < limit .heritageClause

/-- The node is sound and covers the text from an offset on. -/
structure Fits (text : Source) (limit : NodeKind → Nat) (i : Nat) (node : Node) : Prop
    extends node.Sound text limit where
  tiles : node.Tiles text i node.span.stop

/-- The same for nodes side by side. -/
def AllFit (text : Source) (limit : NodeKind → Nat) : Nat → List Node → Prop
  | _, [] => True
  | i, node :: nodes => node.Fits text limit i ∧ AllFit text limit node.span.stop nodes

/-- Nodes side by side from one offset to another. -/
@[simp]
abbrev FitTo (text : Source) (limit : NodeKind → Nat) (i j : Nat) (nodes : List Node) : Prop :=
  AllFit text limit i nodes ∧ stopOf i nodes = j

@[simp]
theorem allFit_nil : AllFit text limit i [] := trivial

@[simp]
theorem allFit_cons : AllFit text limit i (node :: nodes) ↔
    node.Fits text limit i ∧ AllFit text limit node.span.stop nodes :=
  Iff.rfl

@[simp]
theorem allFit_append : AllFit text limit i (nodes ++ others) ↔
    AllFit text limit i nodes ∧ AllFit text limit (stopOf i nodes) others := by
  induction nodes generalizing i with
  | nil => simp
  | cons node nodes ih => simp [ih, and_assoc]

theorem allFit_iff : AllFit text limit i nodes ↔
    (∀ node ∈ nodes, node.Sound text limit) ∧ TileAll text nodes i (stopOf i nodes) := by
  induction nodes generalizing i with
  | nil => simp [tileAll_nil]
  | cons node nodes ih =>
    rw [allFit_cons, ih, List.forall_mem_cons, tileAll_cons]
    constructor
    · rintro ⟨hnode, hnodes, htiles⟩
      exact ⟨⟨hnode.toSound, hnodes⟩, _, hnode.tiles, htiles⟩
    · rintro ⟨⟨hnode, hnodes⟩, k, htiles, hrest⟩
      obtain rfl := htiles.lies.2.1
      exact ⟨⟨hnode, htiles⟩, hnodes, hrest⟩

theorem Sound.mono (h : node.Sound text limit) (hle : ∀ kind, limit kind ≤ limit' kind) :
    node.Sound text limit' :=
  ⟨h.taken, h.keeps.mono hle, h.regular, fun hkind => Nat.lt_of_lt_of_le (h.apart hkind) (hle _)⟩

theorem Fits.mono (h : node.Fits text limit i) (hle : ∀ kind, limit kind ≤ limit' kind) :
    node.Fits text limit' i :=
  ⟨h.toSound.mono hle, h.tiles⟩

theorem AllFit.mono (h : AllFit text limit i nodes) (hle : ∀ kind, limit kind ≤ limit' kind) :
    AllFit text limit' i nodes :=
  allFit_iff.2 ((allFit_iff.1 h).imp_left fun h node hnode => (h node hnode).mono hle)

theorem tiles_leafOf {text : String} {kind : TokenKind} {s : Scanner} (hs : s.Reached text)
    (hkind : kind = s.kind ∨ kind = .identifier ∧ s.kind.isIdentifierOrKeyword) :
    (Grammar.Parser.leafOf kind s).Tiles text s.full.offset s.here.offset := by
  simp only [Grammar.Parser.leafOf, Tiles, and_true]
  exact ⟨rfl, rfl, s, hs, hkind, rfl⟩

theorem fits_leafOf {kind : TokenKind} {s : Scanner} (h : kind ≠ .endOfFile) (hs : text.Reaches s)
    (hkind : kind = s.kind ∨ kind = .identifier ∧ s.kind.isIdentifierOrKeyword) :
    (Grammar.Parser.leafOf kind s).Fits text limit s.full.offset := by
  refine ⟨⟨List.forall_mem_singleton.2 ⟨?_, fun hfirst => ⟨kind, s, rfl, fun hother => ?_⟩⟩,
    keeps_leaf, regular_leaf _, fun hkind => by cases hkind⟩, tiles_leafOf hs.reached hkind⟩
  · simpa [Grammar.Parser.leafOf, isToken, token?] using h
  · obtain rfl | ⟨rfl, -⟩ := hkind
    · obtain rfl := hs.same hfirst hother
      exact ⟨rfl, rfl⟩
    · cases hother

/-- A node that is read from the start of the source starts there. -/
theorem Fits.leads (h : node.Fits text limit text.start.full.offset) :
    Grammar.Leads text.start node.firstLeaf := by
  obtain ⟨token, k, hfirst, -, htoken⟩ := firstLeaf_of_tiles h.tiles
  refine (h.taken _ h.tiles.firstLeaf_mem).2 ?_
  rw [hfirst]
  exact htoken.lies.1

/-- A node is what its children are together. Clauses of heritage stand where they belong. -/
theorem AllFit.group (h : AllFit text limit i nodes) (hne : nodes ≠ [])
    (hkeeps : (∀ node ∈ nodes, node.Keeps limit) → (Node.group kind nodes).Keeps limit')
    (hshape : kind ≠ .heritageClause → kind.HasShape text nodes)
    (hheritage : limit .heritageClause = 0 ∨ kind.hasHeritage)
    (hapart : kind = .heritageClause → 0 < limit' .heritageClause) :
    (Node.group kind nodes).Fits text limit' i := by
  obtain ⟨hnodes, htiles⟩ := allFit_iff.1 h
  refine ⟨⟨taken_branch.2 fun node hnode => (hnodes node hnode).taken,
    hkeeps fun node hnode => (hnodes node hnode).keeps,
    .group (fun node hnode => (hnodes node hnode).regular) hshape ?_, by simpa using hapart⟩, ?_⟩
  · rintro ⟨child, hchild, hclause⟩
    have hroom := (hnodes child hchild).apart hclause
    exact hheritage.resolve_left (Nat.ne_of_gt hroom)
  · rw [stop_group, stopOf_eq_stopOf.2 fun hnil => absurd hnil hne]
    exact htiles.group kind hne

theorem Fits.children (h : node.Fits text limit i) (hkind : node.isKind kind)
    (hheritage : kind.hasHeritage = false) :
    node.children ≠ [] ∧ AllFit text limit i node.children ∧
      stopOf i node.children = node.span.stop := by
  obtain ⟨hne, htiles⟩ := h.tiles.children hkind
  refine ⟨hne, allFit_iff.2 ⟨fun child hchild => ?_, ?_⟩, htiles.stopOf⟩
  · obtain ⟨span, marks, nodes, rfl⟩ := exists_of_isKind hkind
    obtain ⟨-, hbelongs, hregular⟩ := h.regular.branch
    refine ⟨taken_branch.1 h.taken child hchild, h.keeps.children hchild, hregular child hchild,
      fun hclause => ?_⟩
    rw [hbelongs ⟨child, hchild, hclause⟩] at hheritage
    cases hheritage
  · rwa [htiles.stopOf]

end Node

namespace Grammar

open Untype.Node Untype.Grammar.Parser

variable {text : Source} {depth i : Nat} {node : Node} {nodes : List Node} {kind : NodeKind}

/-! ## Room -/

/-- What lies one level deeper may have as many nodes on a way down as there are levels left. -/
def inside (depth : Nat) (kind : NodeKind) : Nat :=
  if kind = .heritageClause then 0 else maxDepth - depth

/-- What lies at this depth may have one more. Arrow functions only start one level deeper. -/
def around (depth : Nat) (kind : NodeKind) : Nat :=
  if kind = .heritageClause then 0
  else if kind = .arrowFunction then maxDepth - depth else maxDepth - depth + 1

/-- What lies at this depth where an arrow function may start. -/
def outside (depth : Nat) (kind : NodeKind) : Nat :=
  if kind = .heritageClause then 0 else maxDepth - depth + 1

/-- What lies at this depth where clauses of heritage belong. -/
def amongHeritage (depth : Nat) (kind : NodeKind) : Nat :=
  if kind = .heritageClause then 1 else around depth kind

theorem inside_le_around (depth : Nat) (kind : NodeKind) :
    inside depth kind ≤ around depth kind := by
  unfold inside around
  repeat' split
  all_goals omega

theorem around_le_outside (depth : Nat) (kind : NodeKind) :
    around depth kind ≤ outside depth kind := by
  unfold around outside
  repeat' split
  all_goals omega

@[simp 900]
theorem fits_around (h : node.Fits text (inside depth) i) : node.Fits text (around depth) i :=
  h.mono (inside_le_around depth)

@[simp 900]
theorem allFit_around (h : AllFit text (inside depth) i nodes) :
    AllFit text (around depth) i nodes :=
  h.mono (inside_le_around depth)

@[simp 900]
theorem fits_outside (h : node.Fits text (around depth) i) : node.Fits text (outside depth) i :=
  h.mono (around_le_outside depth)

theorem around_le_amongHeritage (depth : Nat) (kind : NodeKind) :
    around depth kind ≤ amongHeritage depth kind := by
  unfold amongHeritage
  split
  · simp [around, *]
  · exact Nat.le_refl _

@[simp 900]
theorem fits_amongHeritage (h : node.Fits text (around depth) i) :
    node.Fits text (amongHeritage depth) i :=
  h.mono (around_le_amongHeritage depth)

@[simp 900]
theorem allFit_amongHeritage (h : AllFit text (around depth) i nodes) :
    AllFit text (amongHeritage depth) i nodes :=
  h.mono (around_le_amongHeritage depth)

theorem fits_inside (hdepth : depth < maxDepth) (h : node.Fits text (outside (depth + 1)) i) :
    node.Fits text (inside depth) i :=
  h.mono fun _ => by unfold outside inside; split <;> omega

/-! ## Nodes with children -/

/-- A limit without room for clauses of heritage. -/
class Plain (limit : NodeKind → Nat) : Prop where
  heritage : limit .heritageClause = 0

instance : Plain (inside depth) := ⟨by simp [inside]⟩

instance : Plain (around depth) := ⟨by simp [around]⟩

@[simp]
theorem fits_group {limit : NodeKind → Nat} [hlimit : Plain limit]
    (hkind : kind ∉ NodeKind.guarded ∧ kind ∉ NodeKind.familial) :
    (group kind nodes).Fits text limit i ↔
      nodes ≠ [] ∧ AllFit text limit i nodes ∧ kind.HasShape text nodes := by
  obtain ⟨hclause, hheritage⟩ : kind ≠ .heritageClause ∧ kind.hasHeritage = false := by
    cases kind <;> simp_all [NodeKind.hasHeritage]
  constructor
  · intro h
    obtain ⟨hne, hnodes, -⟩ := h.children (by simp) hheritage
    exact ⟨hne, hnodes, h.regular.branch.1 hclause⟩
  · rintro ⟨hne, h, hshape⟩
    exact h.group hne (keeps_group hkind.1).2 (fun _ => hshape) (.inl hlimit.heritage)
      fun h => absurd h hclause

/-- Nothing is asked of the parts of such a node. -/
structure NodeKind.Simple (kind : NodeKind) : Prop where
  unguarded : kind ∉ NodeKind.guarded
  unfamilial : kind ∉ NodeKind.familial
  shape : ∀ text nodes, kind.HasShape text nodes

theorem fits_simple {limit : NodeKind → Nat} [Plain limit] (hkind : NodeKind.Simple kind)
    (hne : nodes ≠ []) (h : AllFit text limit i nodes) : (group kind nodes).Fits text limit i :=
  (fits_group ⟨hkind.unguarded, hkind.unfamilial⟩).2 ⟨hne, h, hkind.shape text nodes⟩

theorem fits_guarded (h : AllFit text (inside depth) i nodes) (hne : nodes ≠ [])
    (hkind : kind ∈ NodeKind.guarded ∧ kind ≠ .arrowFunction) (hshape : kind.HasShape text nodes) :
    (group kind nodes).Fits text (around depth) i := by
  have hheritage : kind ≠ .heritageClause := by
    rintro rfl
    simp at hkind
  refine h.group hne (fun h => .group h (inside_le_around depth) ?_) (fun _ => hshape)
    (.inl Plain.heritage) fun h => absurd h hheritage
  simp [inside, around, hkind.2, hheritage]

theorem fits_arrowFunction (h : AllFit text (around depth) i nodes) (hne : nodes ≠ [])
    (hshape : NodeKind.HasShape text .arrowFunction nodes) :
    (group .arrowFunction nodes).Fits text (outside depth) i :=
  h.group hne (fun h => .group h (around_le_outside depth) (by simp [around, outside]))
    (fun _ => hshape) (.inl Plain.heritage) (by simp)

/-- Clauses of heritage belong to the node. -/
theorem fits_ofHeritage (hkind : kind.hasHeritage) (hne : nodes ≠ [])
    (h : AllFit text (amongHeritage depth) i nodes) (hshape : kind.HasShape text nodes) :
    (group kind nodes).Fits text (around depth) i := by
  obtain ⟨hguarded, hheritage⟩ : kind ∉ NodeKind.guarded ∧ kind ≠ .heritageClause := by
    constructor <;> rintro h <;> cases kind <;> simp_all [NodeKind.hasHeritage]
  refine h.group hne (fun h => (keeps_group hguarded).2 fun node hnode way hway kind hkind => ?_)
    (fun _ => hshape) (.inr hkind) fun h => absurd h hheritage
  -- Only clauses of heritage have more room here, and those do not count.
  refine Nat.le_trans (h node hnode way hway kind hkind) (Nat.le_of_eq (if_neg ?_))
  rintro rfl
  simp at hkind

end Grammar

end Untype
