-- Trees that cover a piece of a text without gap or overlap. The leaves of
-- such a tree are tokens as a reading of the text found them, and the span
-- of each branch is made of the spans of its children.
import Mathlib.Data.List.Chain
import Untype.Proofs.Scanning
import Untype.Tree.Node

namespace Untype

open Untype.Text

/-! ## Tilings -/

/-- The offsets of a span are places of the text, in order. -/
structure Span.Lies (text : String) (span : Span) : Prop where
  pos_le : span.pos ≤ span.start
  start_le : span.start ≤ span.stop
  pos : Boundary text span.pos
  start : Boundary text span.start
  stop : Boundary text span.stop

/-- The token is one that a reading of the text came to. A word may have become a name. -/
structure Token.Read (text : String) (token : Token) : Prop where
  clean : token.dirty = false
  bare : token.trivia = none
  reading : ∃ s, Scanner.Reached text s ∧
    (token.kind = s.kind ∨ token.kind = .identifier ∧ s.kind.isIdentifierOrKeyword) ∧
    token.span = ⟨s.full.offset, s.start.offset, s.here.offset⟩

theorem Token.Read.lies {text : String} {token : Token} (h : token.Read text) :
    token.span.Lies text := by
  obtain ⟨s, hs, -, hspan⟩ := h.reading
  have hfits := hs.fits
  rw [hspan]
  exact ⟨hfits.start.le, hfits.here.le, hfits.full.boundary,
    (hfits.full.trans hfits.start).boundary, hfits.toHere.boundary⟩

namespace Node

variable {kind : NodeKind} {part : Node} {nodes : List Node}

mutual

/-- The tree covers the text from one offset to another. -/
def Tiles (text : String) : Node → Nat → Nat → Prop
  | leaf token, i, j => token.Read text ∧ token.span.pos = i ∧ token.span.stop = j
  | inserted _, _, _ => False
  | branch _ span marks children, i, j =>
    span = spanOf children ∧ marks = {} ∧ children ≠ [] ∧ TileAll text children i j

/-- Trees side by side cover the text from one offset to another. -/
def TileAll (text : String) : List Node → Nat → Nat → Prop
  | [], i, j => i = j
  | child :: rest, i, j => ∃ k, Tiles text child i k ∧ TileAll text rest k j

end

variable {text : String} {node : Node} {nodes others : List Node} {i j k : Nat}

theorem tileAll_nil : TileAll text [] i j ↔ i = j := by simp only [TileAll]

theorem tileAll_cons :
    TileAll text (node :: nodes) i j ↔ ∃ k, Tiles text node i k ∧ TileAll text nodes k j := by
  simp only [TileAll]

theorem tileAll_append :
    TileAll text (nodes ++ others) i j ↔ ∃ k, TileAll text nodes i k ∧ TileAll text others k j := by
  induction nodes generalizing i with
  | nil => simp [tileAll_nil]
  | cons node nodes ih =>
    simp only [List.cons_append, tileAll_cons, ih]
    constructor
    · rintro ⟨k, hnode, l, hnodes, hothers⟩
      exact ⟨l, ⟨k, hnode, hnodes⟩, hothers⟩
    · rintro ⟨l, ⟨k, hnode, hnodes⟩, hothers⟩
      exact ⟨k, hnode, l, hnodes, hothers⟩

theorem Tiles.cons (h : Tiles text node i j) (hs : TileAll text nodes j k) :
    TileAll text (node :: nodes) i k := tileAll_cons.2 ⟨j, h, hs⟩

theorem TileAll.append (h : TileAll text nodes i j) (hs : TileAll text others j k) :
    TileAll text (nodes ++ others) i k := tileAll_append.2 ⟨j, h, hs⟩

theorem Tiles.single (h : Tiles text node i j) :
    TileAll text [node] i j := h.cons (tileAll_nil.2 rfl)

theorem tiles_branch {span : Span} {marks : Marks} :
    Tiles text (branch kind span marks nodes) i j ↔
      span = spanOf nodes ∧ marks = {} ∧ nodes ≠ [] ∧ TileAll text nodes i j := by
  simp only [Tiles]

theorem Tiles.tileAll {span : Span} {marks : Marks}
    (h : Tiles text (branch kind span marks nodes) i j) : TileAll text nodes i j :=
  (tiles_branch.1 h).2.2.2

theorem TileAll.group (h : TileAll text nodes i j) (kind : NodeKind) (hne : nodes ≠ []) :
    Tiles text (group kind nodes) i j := tiles_branch.2 ⟨rfl, rfl, hne, h⟩

theorem Tiles.children (h : Tiles text node i j) (hkind : node.isKind kind) :
    node.children ≠ [] ∧ TileAll text node.children i j := by
  cases node with
  | leaf token | inserted piece => simp [isKind, kind?] at hkind
  | branch kind span marks children => exact (tiles_branch.1 h).2.2

/-! ## Spans -/

@[simp]
theorem spanOf_cons_pos : (spanOf (node :: nodes)).pos = node.span.pos := by
  cases nodes <;> simp [spanOf, List.getLast?_cons]

@[simp]
theorem spanOf_cons_start : (spanOf (node :: nodes)).start = node.span.start := by
  cases nodes <;> simp [spanOf, List.getLast?_cons]

@[simp]
theorem spanOf_cons_cons_stop {other : Node} :
    (spanOf (node :: other :: nodes)).stop = (spanOf (other :: nodes)).stop := by
  simp [spanOf, List.getLast?_cons]

mutual

variable {text : String}

/-- A tree that tiles has the span that it covers. -/
theorem Tiles.lies : ∀ {node : Node} {i j : Nat}, Tiles text node i j →
    node.span.pos = i ∧ node.span.stop = j ∧ node.span.Lies text
  | leaf token, i, j, h => by
    obtain ⟨hread, hpos, hstop⟩ : token.Read text ∧ token.span.pos = i ∧ token.span.stop = j := by
      simpa only [Tiles] using h
    exact ⟨hpos, hstop, hread.lies⟩
  | inserted piece, i, j, h => by simp only [Tiles] at h
  | branch kind span marks children, i, j, h => by
    obtain ⟨rfl, -, hne, hchildren⟩ := tiles_branch.1 h
    exact TileAll.lies hchildren hne

/-- Trees side by side that tile have the span that they cover. -/
theorem TileAll.lies : ∀ {nodes : List Node} {i j : Nat}, TileAll text nodes i j →
    nodes ≠ [] → (spanOf nodes).pos = i ∧ (spanOf nodes).stop = j ∧ (spanOf nodes).Lies text
  | [], _, _, _, hne => absurd rfl hne
  | [node], i, j, h, _ => by
    obtain ⟨k, hnode, rfl⟩ : ∃ k, Tiles text node i k ∧ k = j := by
      simpa only [tileAll_cons, tileAll_nil] using h
    exact Tiles.lies hnode
  | node :: other :: nodes, i, j, h, _ => by
    obtain ⟨k, hnode, hrest⟩ := tileAll_cons.1 h
    obtain ⟨hpos, hstop, hlies⟩ := Tiles.lies hnode
    obtain ⟨hpos', hstop', hlies'⟩ := TileAll.lies hrest (by simp)
    refine ⟨by simpa using hpos, by simpa using hstop', ?_⟩
    have hmeet : node.span.stop ≤ (spanOf (other :: nodes)).start := by
      have := hlies'.pos_le
      omega
    exact ⟨by simpa using hlies.pos_le,
      by simpa using Nat.le_trans hlies.start_le (Nat.le_trans hmeet hlies'.start_le),
      by simpa using hlies.pos, by simpa using hlies.start, by simpa using hlies'.stop⟩

end

theorem TileAll.adjacent (h : TileAll text nodes i j) :
    nodes.IsChain fun a b => b.span.pos = a.span.stop := by
  induction nodes generalizing i with
  | nil => exact .nil
  | cons node nodes ih =>
    obtain ⟨k, hnode, hrest⟩ := tileAll_cons.1 h
    cases nodes with
    | nil => exact .singleton node
    | cons other nodes =>
      obtain ⟨l, hother, -⟩ := tileAll_cons.1 hrest
      refine .cons_cons ?_ (ih hrest)
      rw [hother.lies.1, hnode.lies.2.1]

theorem TileAll.mem (h : TileAll text nodes i j) (hnode : node ∈ nodes) :
    ∃ k l, Tiles text node k l := by
  induction nodes generalizing i with
  | nil => simp at hnode
  | cons first nodes ih =>
    obtain ⟨k, hfirst, hrest⟩ := tileAll_cons.1 h
    rcases List.mem_cons.1 hnode with rfl | hmem
    · exact ⟨i, k, hfirst⟩
    · exact ih hrest hmem

/-- The slices of nodes that tile make the slice of all. -/
theorem TileAll.join_slices (h : TileAll text nodes i j) :
    String.join (nodes.map fun node => slice text node.span.pos node.span.stop) =
      slice text i j := by
  induction nodes generalizing i with
  | nil =>
    obtain rfl := tileAll_nil.1 h
    simp
  | cons node nodes ih =>
    obtain ⟨k, hnode, hrest⟩ := tileAll_cons.1 h
    obtain ⟨rfl, rfl, hlies⟩ := hnode.lies
    rw [List.map_cons, String.join_cons, ih hrest]
    cases nodes with
    | nil =>
      obtain rfl := tileAll_nil.1 hrest
      simp
    | cons other nodes =>
      obtain ⟨hpos, rfl, hlies'⟩ := hrest.lies (by simp)
      have hle := Nat.le_trans hlies'.pos_le hlies'.start_le
      exact slice_append hlies.pos hlies.stop hlies'.stop
        (Nat.le_trans hlies.pos_le hlies.start_le) (by omega)

/-! ## Leaves and descendants -/

theorem leavesOf_append (nodes others : List Node) :
    leavesOf (nodes ++ others) = leavesOf nodes ++ leavesOf others := by
  induction nodes with
  | nil => rfl
  | cons node nodes ih => simp [leavesOf, ih]

theorem mem_leavesOf : part ∈ leavesOf nodes ↔ ∃ node ∈ nodes, part ∈ node.leaves := by
  induction nodes with
  | nil => simp [leavesOf]
  | cons node nodes ih => simp [leavesOf, ih]

theorem mem_descendantsOf :
    part ∈ descendantsOf nodes ↔ ∃ node ∈ nodes, part ∈ node.descendants := by
  induction nodes with
  | nil => simp [descendantsOf]
  | cons node nodes ih => simp [descendantsOf, ih]

theorem mem_descendants_self (node : Node) : node ∈ node.descendants := by
  cases node <;> simp [descendants]

theorem mem_descendants_iff {node : Node} : part ∈ node.descendants ↔
    part = node ∨ ∃ child ∈ node.children, part ∈ child.descendants := by
  cases node with
  | branch kind span marks nodes => simp [descendants, children, mem_descendantsOf]
  | leaf token | inserted piece => simp [descendants, children]

theorem child_mem_descendants {child : Node} (h : child ∈ node.children) :
    child ∈ node.descendants :=
  mem_descendants_iff.2 (.inr ⟨child, h, mem_descendants_self child⟩)

theorem induct {p : Node → Prop} (step : ∀ node : Node, (∀ child ∈ node.children, p child) → p node)
    (node : Node) : p node := by
  refine step node fun child hchild => induct step child
termination_by sizeOf node
decreasing_by
  cases node with
  | branch kind span marks nodes =>
    have := List.sizeOf_lt_of_mem hchild
    simp only [children, branch.sizeOf_spec] at this ⊢
    omega
  | leaf token | inserted piece => cases hchild

theorem descendants_subset (hpart : part ∈ node.descendants) :
    part.descendants ⊆ node.descendants := by
  induction node using induct with
  | step node ih =>
    rcases mem_descendants_iff.1 hpart with rfl | ⟨child, hchild, hpart⟩
    · exact List.Subset.refl _
    · exact fun _ hbelow =>
        mem_descendants_iff.2 (.inr ⟨child, hchild, ih child hchild hpart hbelow⟩)

theorem mem_descendants_of_mem_children {child : Node} (hchild : child ∈ part.children)
    (hpart : part ∈ node.descendants) : child ∈ node.descendants :=
  descendants_subset hpart (child_mem_descendants hchild)

mutual

theorem leaves_eq_filter : ∀ node : Node,
    node.leaves = node.descendants.filter fun part => part.kind?.isNone
  | leaf _ | inserted _ => rfl
  | branch _ _ _ children => leavesOf_eq_filter children

theorem leavesOf_eq_filter : ∀ nodes : List Node,
    leavesOf nodes = (descendantsOf nodes).filter fun part => part.kind?.isNone
  | [] => rfl
  | node :: nodes => by
    rw [leavesOf, descendantsOf, List.filter_append, leaves_eq_filter node,
      leavesOf_eq_filter nodes]

end

mutual

variable {text : String}

/-- The leaves of a tree that tiles do so too. -/
theorem Tiles.leaves : ∀ {node : Node} {i j : Nat}, Tiles text node i j →
    node.leaves ≠ [] ∧ TileAll text node.leaves i j
  | leaf token, i, j, h => ⟨by simp [Node.leaves], h.single⟩
  | inserted piece, i, j, h => by simp only [Tiles] at h
  | branch kind span marks children, i, j, h => by
    obtain ⟨-, -, hne, hchildren⟩ := tiles_branch.1 h
    obtain ⟨hleaves, htile⟩ := TileAll.leavesOf hchildren
    exact ⟨fun hnil => hne (hleaves hnil), htile⟩

theorem TileAll.leavesOf : ∀ {nodes : List Node} {i j : Nat},
    TileAll text nodes i j →
      (Node.leavesOf nodes = [] → nodes = []) ∧ TileAll text (Node.leavesOf nodes) i j
  | [], i, j, h => ⟨fun _ => rfl, h⟩
  | node :: nodes, i, j, h => by
    obtain ⟨k, hnode, hrest⟩ := tileAll_cons.1 h
    obtain ⟨hne, hleaves⟩ := Tiles.leaves hnode
    refine ⟨fun hnil => ?_, hleaves.append (TileAll.leavesOf hrest).2⟩
    exact absurd (List.append_eq_nil_iff.1 hnil).1 hne

end

theorem Tiles.descendants (h : Tiles text node i j) (part : Node)
    (hpart : part ∈ node.descendants) :
    ∃ k l, Tiles text part k l := by
  induction node using Node.induct generalizing i j with
  | step node ih =>
    rcases mem_descendants_iff.1 hpart with rfl | ⟨child, hchild, hbelow⟩
    · exact ⟨i, j, h⟩
    · cases node with
      | branch kind span marks nodes =>
        obtain ⟨k, l, htiles⟩ := h.tileAll.mem hchild
        exact ih child hchild htiles hbelow
      | leaf token | inserted piece => cases hchild

variable {source : String}

theorem Tiles.mem_leaves (h : Tiles source node i j) (part : Node)
    (hpart : part ∈ Node.leaves node) : ∃ token, part = leaf token ∧ token.Read source := by
  rw [leaves_eq_filter, List.mem_filter] at hpart
  obtain ⟨k, l, htiles⟩ := h.descendants part hpart.1
  cases part with
  | leaf token =>
    simp only [Tiles] at htiles
    exact ⟨token, rfl, htiles.1⟩
  | inserted piece => simp only [Tiles] at htiles
  | branch kind span marks nodes => cases hpart.2

theorem Tiles.leaves_eq_cons : ∀ {node : Node} {i j : Nat}, Tiles source node i j →
    Node.leaves node = node.firstLeaf :: (Node.leaves node).tail
  | leaf token, i, j, h => rfl
  | inserted piece, i, j, h => rfl
  | branch kind place marks [], i, j, h => absurd rfl (tiles_branch.1 h).2.2.1
  | branch kind place marks (child :: rest), i, j, h => by
    obtain ⟨k, hchild, -⟩ := tileAll_cons.1 h.tileAll
    rw [Node.leaves, Node.leavesOf, firstLeaf, firstLeafOf, Tiles.leaves_eq_cons hchild]
    rfl

/-- The first leaf of a tree starts where the tree does. -/
theorem firstLeaf_of_tiles : ∀ {node : Node} {i j : Nat},
    Tiles source node i j → ∃ token k, node.firstLeaf = leaf token ∧
      token.span.start = node.span.start ∧ Tiles source (leaf token) i k
  | leaf token, i, j, h => ⟨token, j, rfl, rfl, h⟩
  | inserted piece, i, j, h => by simp only [Tiles] at h
  | branch kind span marks [], i, j, h => absurd rfl (tiles_branch.1 h).2.2.1
  | branch kind span marks (child :: rest), i, j, h => by
    obtain ⟨rfl, -, -, hchildren⟩ := tiles_branch.1 h
    obtain ⟨k, hchild, -⟩ := tileAll_cons.1 hchildren
    rw [firstLeaf, firstLeafOf, Node.span, spanOf_cons_start]
    exact firstLeaf_of_tiles hchild

theorem Tiles.firstLeaf_mem (h : Tiles text node i j) : node.firstLeaf ∈ Node.leaves node := by
  rw [h.leaves_eq_cons]
  exact List.mem_cons_self

mutual

variable {source : String}

theorem Tiles.getLast?_leaves : ∀ {node : Node} {i j : Nat}, Tiles source node i j →
    (Node.leaves node).getLast? = some node.lastLeaf
  | leaf token, i, j, h => rfl
  | inserted piece, i, j, h => rfl
  | branch kind place marks children, i, j, h => by
    rw [Node.leaves, lastLeaf]
    exact TileAll.getLast?_leavesOf _ (tiles_branch.1 h).2.2.1 h.tileAll

theorem TileAll.getLast?_leavesOf (fallback : Node) : ∀ {nodes : List Node} {i j : Nat},
    nodes ≠ [] → TileAll source nodes i j →
    (Node.leavesOf nodes).getLast? = some (lastLeafOf fallback nodes)
  | [], i, j, hne, h => absurd rfl hne
  | [node], i, j, hne, h => by
    obtain ⟨k, hnode, -⟩ := tileAll_cons.1 h
    rw [Node.leavesOf, Node.leavesOf, List.append_nil, lastLeafOf]
    exact Tiles.getLast?_leaves hnode
  | node :: next :: rest, i, j, hne, h => by
    obtain ⟨k, -, hrest⟩ := tileAll_cons.1 h
    have hlast := TileAll.getLast?_leavesOf fallback (List.cons_ne_nil _ _) hrest
    rw [Node.leavesOf, List.getLast?_append, hlast]
    rfl

end

end Node

end Untype
