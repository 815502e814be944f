-- The erasure takes parts of a tree away and puts pieces in. What is kept
-- stays what and where it was, in the same order, and nothing is kept twice.
import Untype.Proofs.Erasure.Steps

namespace Untype.Node

/-! ## Pruned trees -/

/-- The second trees are the first ones without some of their nodes, and with inserted pieces.
What is kept has its kind and its place. -/
inductive Prunes : List Node → List Node → Prop where
  | nil : Prunes [] []
  | drop {node : Node} {rest kept : List Node} : Prunes rest kept → Prunes (node :: rest) kept
  | insert {piece : Inserted} {nodes kept : List Node} :
    Prunes nodes kept → Prunes nodes (inserted piece :: kept)
  | leaf {token token' : Token} {rest kept : List Node} : token'.kind = token.kind →
    token'.span = token.span → Prunes rest kept → Prunes (leaf token :: rest) (leaf token' :: kept)
  | branch {kind : NodeKind} {span : Span} {marks marks' : Marks}
    {children children' rest kept : List Node} : Prunes children children' → Prunes rest kept →
    Prunes (branch kind span marks children :: rest) (branch kind span marks' children' :: kept)

/-- A node of the source, and not an inserted piece. -/
def isSource (node : Node) : Bool := node.label != .inserted

/-- What a node is, and where it is. -/
def face (node : Node) : Label × Span := (node.label, node.span)

/-- The nodes of the source among these and below them. -/
def sourceNodes (nodes : List Node) : List Node := (descendantsOf nodes).filter isSource

/-- The tokens of the source in these trees. -/
def sourceLeaves (nodes : List Node) : List Node := (leavesOf nodes).filter isSource

variable {nodes kept : List Node}

/-- Each node that is kept comes from a node of its own, in the same order. -/
theorem Prunes.sourceNodes_sublist (h : Prunes nodes kept) :
    ((sourceNodes kept).map face).Sublist ((descendantsOf nodes).map face) := by
  induction h with
  | nil => exact List.Sublist.refl _
  | drop _ ih =>
    rw [descendantsOf, List.map_append]
    exact ih.trans (List.sublist_append_right _ _)
  | insert _ ih => exact ih
  | @leaf token token' rest kept hkind hspan _ ih =>
    have hface : face (.leaf token') = face (.leaf token) := by simp [face, label, span,
        hkind, hspan]
    have hcons : sourceNodes (.leaf token' :: kept) = .leaf token' :: sourceNodes kept := rfl
    rw [hcons, descendantsOf, List.map_cons, hface, List.map_append]
    exact (List.Sublist.refl [face (.leaf token)]).append ih
  | @branch kind span marks marks' children children' rest kept _ _ ihchildren ihrest =>
    have hcons : sourceNodes (.branch kind span marks' children' :: kept) =
        .branch kind span marks' children' :: (sourceNodes children' ++ sourceNodes kept) := by
      rw [sourceNodes, descendantsOf, descendants, List.cons_append, List.filter_cons_of_pos rfl,
        List.filter_append]
      rfl
    rw [hcons, descendantsOf, descendants, List.cons_append, List.map_cons, List.map_cons,
      List.map_append, List.map_append]
    exact (ihchildren.append ihrest).cons_cons _

theorem map_face_leaves (nodes : List Node) :
    (nodes.filter fun part => part.kind?.isNone).map face =
      (nodes.map face).filter fun part => !part.1.satisfies fun _ => true := by
  induction nodes with
  | nil => rfl
  | cons node nodes ih => cases node <;> simp_all [kind?, face, label, Label.satisfies]

theorem Prunes.sourceLeaves_sublist (h : Prunes nodes kept) :
    ((sourceLeaves kept).map face).Sublist ((leavesOf nodes).map face) := by
  have hkept : sourceLeaves kept = (sourceNodes kept).filter fun part => part.kind?.isNone := by
    rw [sourceLeaves, sourceNodes, leavesOf_eq_filter, List.filter_comm]
  rw [hkept, leavesOf_eq_filter, map_face_leaves, map_face_leaves]
  exact h.sourceNodes_sublist.filter _

end Untype.Node

namespace Untype.Erasure

open Untype.Node

/-! ## The walk prunes -/

section Pieces

variable {source : String} {node : Node} {nodes rest kept : List Node} {i j : Nat}

theorem prunes_leaf {token : Token} (hface : node.face = face (leaf token)) (h : Prunes rest kept) :
    Prunes (leaf token :: rest) (node :: kept) := by
  cases node with
  | leaf token' =>
    simp only [face, label, span, Prod.mk.injEq, Label.token.injEq] at hface
    exact .leaf hface.1 hface.2 h
  | inserted piece | branch kind span marks children => simp [face, label] at hface

mutual

/-- A tree of the source may stay as it is. -/
theorem Tiles.prunes : ∀ {node : Node} {i j : Nat} {rest kept : List Node},
    Tiles source node i j → Prunes rest kept → Prunes (node :: rest) (node :: kept)
  | leaf _, _, _, _, _, _, hrest => .leaf rfl rfl hrest
  | inserted _, _, _, _, _, h, _ => by simp only [Tiles] at h
  | branch _ _ _ _, _, _, _, _, h, hrest => .branch (TileAll.prunes h.tileAll) hrest

theorem TileAll.prunes : ∀ {nodes : List Node} {i j : Nat},
    TileAll source nodes i j → Prunes nodes nodes
  | [], _, _, _ => .nil
  | node :: nodes, _, _, h => by
    obtain ⟨k, hnode, hrest⟩ := tileAll_cons.1 h
    exact Tiles.prunes hnode (TileAll.prunes hrest)

end

theorem prunes_replaceFirstLeaf {first : Node} :
    ∀ {node : Node} {i j : Nat} {rest kept : List Node}, Tiles source node i j →
      first.face = node.firstLeaf.face → Prunes rest kept →
      Prunes (node :: rest) (replaceFirstLeaf first node :: kept)
  | leaf _, _, _, _, _, _, hface, hrest => prunes_leaf hface hrest
  | inserted _, _, _, _, _, h, _, _ => by simp only [Tiles] at h
  | branch _ _ _ [], _, _, _, _, h, _, _ => absurd rfl (tiles_branch.1 h).2.2.1
  | branch _ _ _ (child :: others), _, _, _, _, h, hface, hrest => by
    obtain ⟨k, hchild, hothers⟩ := tileAll_cons.1 h.tileAll
    exact .branch (prunes_replaceFirstLeaf hchild hface (TileAll.prunes hothers)) hrest

theorem face_visitLeaf {w : Walk} : (visitLeaf source w node).node.face = node.face := by
  rw [face, face, label_visitLeaf, span_visitLeaf]

theorem visitTypeSyntax_prunes (w : Walk) (h : Tiles source node i j) (hrest : Prunes rest kept) :
    Prunes (node :: rest) ((visitTypeSyntax source w node).node :: kept) := by
  unfold visitTypeSyntax
  dsimp only
  split
  · exact prunes_replaceFirstLeaf h face_visitLeaf hrest
  · exact Tiles.prunes h hrest

/-- Inserted pieces in front of what is kept. -/
theorem prunes_visitPieces (policy : Policy) (w : Walk) (pieces : List Inserted)
    (h : Prunes nodes kept) : Prunes nodes ((visitPieces source policy w pieces).1 ++ kept) := by
  induction pieces generalizing w with
  | nil => exact h
  | cons piece pieces ih =>
    have hlabel : (visitLeaf source w (inserted piece)).node.label = .inserted := label_visitLeaf
    rw [visitPieces]
    dsimp only
    cases hnode : (visitLeaf source w (inserted piece)).node with
    | inserted piece' => exact .insert (ih _)
    | leaf token | branch kind span marks children => simp [hnode, label] at hlabel

end Pieces

mutual

theorem visit_prunes (s : Setting) :
    ∀ (node : Node) {i j : Nat} {rest kept : List Node} (task : Task) (w : Walk),
      Tiles s.source node i j → Prunes rest kept →
      Prunes (node :: rest) ((visit s task w node).node :: kept)
  | leaf token, _, _, _, _, task, w, _, hrest => by
    refine prunes_leaf ?_ hrest
    simp only [visit]
    rw [face_visitLeaf, face, label_dress, span_dress, face]
  | inserted _, _, _, _, _, _, _, h, _ => by simp only [Tiles] at h
  | branch kind span marks children, _, _, _, _, task, w, h, hrest => by
    rw [visit]
    split
    · exact visitTypeSyntax_prunes w h hrest
    · exact .branch (visitAll_prunes s children _ _ _ _ h.tileAll) hrest

/-- Whatever the actions are, the walk over the children of a node prunes them. -/
theorem visitAll_prunes (s : Setting) : ∀ (children : List Node) {i j : Nat} (policy : Policy)
    (lastKept : Option Label) (w : Walk) (actions : List Action), TileAll s.source children i j →
      Prunes children (visitAll s policy lastKept w actions children).nodes
  | [], _, _, _, _, _, _, _ => by
    rw [visitAll]
    exact .nil
  | child :: rest, _, _, policy, lastKept, w, actions, h => by
    obtain ⟨k, hchild, hrest⟩ := tileAll_cons.1 h
    have hmore := fun lastKept w => visitAll_prunes s rest policy lastKept w actions.tail hrest
    rw [visitAll]
    cases actions.headD .stay with
    | remove removal => exact .drop (hmore _ _)
    | replace piece => exact prunes_visitPieces policy _ [piece] (.drop (hmore _ _))
    | keep task before after =>
      simp only [List.append_assoc, List.cons_append]
      exact prunes_visitPieces policy _ before (visit_prunes s child task _ hchild
        (prunes_visitPieces policy _ after (hmore _ _)))

end

/-! ## The end of the file -/

theorem visit_endOfFile (s : Setting) (w : Walk) (statements : List Node) (place : Span)
    (marks : Marks) {token : Token} (h : token.kind = .endOfFile) :
    ∃ last, (visit s .none w
        (branch .sourceFile place marks (statements ++ [leaf token]))).node.leaves.getLast? =
      some (leaf last) ∧ last.kind = .endOfFile ∧ last.span = token.span := by
  obtain ⟨front, hsteps⟩ := steps_endOfFile s statements h
  rw [(visit_follows s _ .none w).1, hsteps, Step.leavesAlong_append]
  generalize hwalk : Step.walkAlong s.source w front = w'
  have hface : (visitLeaf s.source w' (leaf token)).node.face = face (leaf token) := face_visitLeaf
  cases hnode : (visitLeaf s.source w' (leaf token)).node with
  | leaf last =>
    simp only [hnode, face, label, span, Prod.mk.injEq, Label.token.injEq] at hface
    exact ⟨last, by simp [Step.leaves, hnode], hface.1.trans h, hface.2⟩
  | inserted piece | branch kind span marks children => simp [hnode, face, label] at hface

end Untype.Erasure

namespace Untype

open Untype.Node

/-! ## Tokens in order -/

/-- The second token lies behind the first one. -/
def Span.Precedes (a b : Span) : Prop := a.stop ≤ b.pos ∧ a.start < b.start

namespace Node

variable {text : String} {node : Node} {nodes : List Node} {i j : Nat}

/-- Nodes that tile stand one behind the other, if none but the last is empty. -/
theorem TileAll.precedes (h : TileAll text nodes i j)
    (hfull : ∀ node ∈ nodes.dropLast, node.span.start < node.span.stop) :
    nodes.Pairwise fun a b => a.span.Precedes b.span := by
  induction nodes generalizing i with
  | nil => exact .nil
  | cons node nodes ih =>
    obtain ⟨k, hnode, hrest⟩ := tileAll_cons.1 h
    cases nodes with
    | nil => exact List.pairwise_singleton _ _
    | cons next others =>
      rw [List.dropLast_cons_cons] at hfull
      have hfirst := hfull node List.mem_cons_self
      have hpairwise := ih hrest fun part hpart => hfull part (List.mem_cons_of_mem _ hpart)
      obtain ⟨l, hnext, -⟩ := tileAll_cons.1 hrest
      refine .cons (fun part hpart => ?_) hpairwise
      obtain ⟨-, hstop, -⟩ := hnode.lies
      obtain ⟨hpos, -, hlies⟩ := hnext.lies
      have hle := hlies.pos_le
      rcases List.mem_cons.1 hpart with rfl | hpart
      · exact ⟨by omega, by omega⟩
      · have hafter := (List.pairwise_cons.1 hpairwise).1 part hpart
        have hstart := hlies.start_le
        exact ⟨by have := hafter.1; omega, by have := hafter.2; omega⟩

/-- The second tree is the first one with parts taken away and pieces put in: what is left of it
are nodes of its own for nodes of the source, in the same order, with their kinds and places. So
its tokens stand one behind the other, and the last of them is still the end of the text. -/
structure PrunedTo (old new : Node) : Prop where
  prunes : Prunes [old] [new]
  nodes : ((sourceNodes [new]).map face).Sublist (old.descendants.map face)
  tokens : ((sourceLeaves [new]).map face).Sublist (old.leaves.map face)
  precedes : (sourceLeaves [new]).Pairwise fun a b => a.span.Precedes b.span
  last : ∃ token, new.leaves.getLast? = some (leaf token) ∧ token.kind = .endOfFile ∧
    (old.leaves.getLast?).map face = some (face (leaf token))

end Node

namespace SyntaxTree

variable {variant : Variant} {file text : String} {tree : SyntaxTree}

theorem precedes_of_parseAs (h : parseAs variant file text = .ok tree) :
    tree.root.leaves.Pairwise fun a b => a.span.Precedes b.span := by
  obtain ⟨-, htiles, -⟩ := parseAs_tiles h
  refine htiles.leaves.2.precedes fun part hpart => ?_
  obtain ⟨token, rfl, hread⟩ := htiles.mem_leaves _ (List.dropLast_subset _ hpart)
  exact hread.nonempty (by simpa [isToken, token?] using lacksEnd_of_parseAs h _ hpart)

/-- The erasure only takes parts away and puts pieces in. -/
theorem erase_prunes (hparse : parseAs variant file text = .ok tree) (options : Erasure.Options) :
    tree.root.PrunedTo (tree.erase options).tree.root := by
  have hprecedes := precedes_of_parseAs hparse
  obtain ⟨hsource, htiles, statements, token, hroot, hkind⟩ := parseAs_tiles hparse
  have hprunes : Prunes [tree.root] [(tree.erase options).tree.root] := by
    rw [← hsource] at htiles
    exact Erasure.visit_prunes (.ofTree options tree.source tree.root) tree.root .none {}
      htiles .nil
  have hnodes := hprunes.sourceNodes_sublist
  have htokens := hprunes.sourceLeaves_sublist
  rw [descendantsOf, descendantsOf, List.append_nil] at hnodes
  rw [leavesOf, leavesOf, List.append_nil] at htokens
  refine ⟨hprunes, hnodes, htokens, ?_, ?_⟩
  · have hfaces : (tree.root.leaves.map face).Pairwise fun a b => a.2.Precedes b.2 :=
      List.pairwise_map.2 hprecedes
    have hkept := hfaces.sublist htokens
    rwa [List.pairwise_map] at hkept
  · obtain ⟨last, hlast, hend, hspan⟩ := Erasure.visit_endOfFile
      (.ofTree options tree.source tree.root) {} statements (spanOf (statements ++ [leaf token])) {}
      hkind
    refine ⟨last, ?_, hend, ?_⟩
    · rw [← hlast, erase, hroot]
      rfl
    · simp [hroot, group, leaves, leavesOf_append, leavesOf, face, label, span, hspan, hend, hkind]

/-- A class whose fields come from its constructor, between declarations that go. -/
theorem erase_prunes_fields :
    ∃ tree, parseAs .standard "a.ts"
        "interface I {}\nclass A<T> { constructor(private x: T, y = 1) { f(y) } }\nenum E { B }" =
          .ok tree ∧
      tree.root.PrunedTo (tree.erase {}).tree.root ∧
      (sourceLeaves [(tree.erase {}).tree.root]).length < (tree.erase {}).tree.root.leaves.length ∧
      (sourceLeaves [(tree.erase {}).tree.root]).length < tree.root.leaves.length :=
  (exists_checked (by decide +kernel)).imp fun _ htree => ⟨htree.1, erase_prunes htree.1 {},
    htree.2⟩

end SyntaxTree

end Untype
