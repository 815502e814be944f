-- A tree of a text is printed as the text, whichever of its nodes are
-- printed piece by piece and whichever are copied.
import Untype.Proofs.Lossless.Files
import Untype.Tree.Printer

namespace Untype.Node

open Untype.Text

/-! ## Marks by position -/

mutual

/-- Marks the nodes at some positions, counted from `position` in the order of `descendants`, and
no others. -/
def markAt (marked : Nat → Bool) (position : Nat) : Node → Node
  | leaf token => leaf { token with dirty := marked position }
  | inserted piece => inserted { piece with dirty := marked position }
  | branch kind span marks children =>
    branch kind span { marks with dirty := marked position }
      (markAtOf marked (position + 1) children)

/-- The same for nodes side by side. -/
def markAtOf (marked : Nat → Bool) (position : Nat) : List Node → List Node
  | [] => []
  | child :: rest =>
    markAt marked position child :: markAtOf marked (position + child.size) rest

end

mutual

theorem isDirty_markAt (marked : Nat → Bool) : ∀ (node : Node) (position : Nat),
    (node.markAt marked position).descendants.map isDirty =
      (List.range' position node.size).map marked
  | leaf _, _ | inserted _, _ => rfl
  | branch kind span marks children, position => by
    rw [markAt, descendants, size, List.range'_succ, List.map_cons, List.map_cons,
      isDirty_markAtOf marked children (position + 1)]
    rfl

theorem isDirty_markAtOf (marked : Nat → Bool) : ∀ (nodes : List Node) (position : Nat),
    (descendantsOf (markAtOf marked position nodes)).map isDirty =
      (List.range' position (totalSize nodes)).map marked
  | [], _ => rfl
  | child :: rest, position => by
    rw [markAtOf, descendantsOf, totalSize, List.map_append, isDirty_markAt marked child position,
      isDirty_markAtOf marked rest, ← List.range'_append_1, List.map_append]

end

/-! ## Printing -/

theorem print_markAt_leaf {text : String} {token : Token} (h : token.Read text)
    (marked : Nat → Bool) (position : Nat) :
    ((leaf token).markAt marked position).print text =
      slice text token.span.pos token.span.stop := by
  have hlies := h.lies
  rw [markAt, print]
  split
  · rw [h.bare, Option.getD_none]
    exact slice_append hlies.pos hlies.start hlies.stop hlies.pos_le hlies.start_le
  · rfl

mutual

variable {text : String}

/-- What a tree covers is what it is printed as, with any marks. -/
theorem print_markAt (marked : Nat → Bool) : ∀ {node : Node} {i j : Nat}
    (position : Nat), Tiles text node i j →
      (node.markAt marked position).print text = slice text i j
  | leaf token, i, j, position, h => by
    obtain ⟨rfl, rfl, -⟩ := h.lies
    obtain ⟨hread, -, -⟩ : token.Read text ∧ _ ∧ _ := by simpa only [Tiles] using h
    exact print_markAt_leaf hread marked position
  | inserted piece, i, j, position, h => by simp only [Tiles] at h
  | branch kind span marks children, i, j, position, h => by
    obtain ⟨hpos, hstop, -⟩ := h.lies
    rw [markAt, print]
    split
    · have hchildren := h.tileAll
      exact (printAll_markAtOf marked (position + 1) hchildren).trans hchildren.join_slices
    · rw [← hpos, ← hstop]
      rfl

theorem printAll_markAtOf (marked : Nat → Bool) : ∀ {nodes : List Node} {i j : Nat}
    (position : Nat), TileAll text nodes i j → printAll text (markAtOf marked position nodes) =
      String.join (nodes.map fun node => slice text node.span.pos node.span.stop)
  | [], i, j, position, h => rfl
  | child :: rest, i, j, position, h => by
    obtain ⟨k, hchild, hrest⟩ := tileAll_cons.1 h
    obtain ⟨hpos, hstop, -⟩ := hchild.lies
    rw [markAtOf, printAll, print_markAt marked position hchild, printAll_markAtOf marked _ hrest,
      List.map_cons, String.join_cons, hpos, hstop]

end

end Untype.Node

namespace Untype

/-- A tree of a text is printed as the text, whatever set of its nodes is marked. -/
theorem SyntaxTree.text_of_markAt {variant : Variant} {file text : String} {tree : SyntaxTree}
    (h : SyntaxTree.parseAs variant file text = .ok tree) (marked : Nat → Bool) :
    (tree.root.markAt marked 0).descendants.map Node.isDirty =
        (List.range tree.root.size).map marked ∧
      (tree.root.markAt marked 0).print text = text := by
  obtain ⟨-, htiles, -⟩ := parseAs_tiles h
  refine ⟨?_, (Node.print_markAt marked 0 htiles).trans (Text.slice_all text)⟩
  rw [Node.isDirty_markAt, List.range_eq_range']

/-- A template with a substitution and a comment, of which every second node is marked. -/
theorem SyntaxTree.text_of_markAt_alternating :
    ∃ tree, SyntaxTree.parseAs .standard "a.ts" "f(`é$\x7bb/**/\x7d` as T); // c\n" = .ok tree ∧
      (tree.root.markAt (· % 2 == 0) 0).descendants.map Node.isDirty =
        (List.range tree.root.size).map (· % 2 == 0) ∧
      (tree.root.markAt (· % 2 == 0) 0).print "f(`é$\x7bb/**/\x7d` as T); // c\n" =
        "f(`é$\x7bb/**/\x7d` as T); // c\n" :=
  SyntaxTree.exists_parsed (by decide +kernel) fun _ hparse =>
    SyntaxTree.text_of_markAt hparse (· % 2 == 0)

end Untype
