-- The tree of a file keeps every character of its text: the leaves lie side
-- by side from the first byte to the last, and a branch is as long as its
-- children together.
import Untype.Proofs.Anatomy.Ends

namespace Untype

open Untype.Node Untype.Grammar Untype.Grammar.Parser

namespace SyntaxTree

variable {variant : Variant} {file text : String} {tree : SyntaxTree}

theorem parseAs_tiles (h : parseAs variant file text = .ok tree) :
    tree.source = text ∧ tree.root.Tiles text 0 text.utf8ByteSize ∧ ∃ statements token,
      tree.root = group .sourceFile (statements ++ [leaf token]) ∧ token.kind = .endOfFile := by
  obtain ⟨root, state, rfl, hdone⟩ := exists_of_parseAs h
  obtain ⟨statements, token, hroot, hkind, -, htiles, -⟩ := sourceFile_fits hdone
  exact ⟨rfl, htiles, statements, token, hroot, hkind⟩

end SyntaxTree

/-! ## Lossless trees -/

/-- The bytes of the parts, one after another, are the bytes of the whole, which starts where its
first part does. -/
structure Span.Covers (whole : Span) (parts : List Node) : Prop where
  first : ∃ part ∈ parts.head?, whole.pos = part.span.pos ∧ whole.start = part.span.start
  last : ∃ part ∈ parts.getLast?, whole.stop = part.span.stop
  adjacent : parts.IsChain fun part next => next.span.pos = part.span.stop

/-- The leaves of the tree lie side by side and are the whole text, and the bytes of each branch
are those of its children. -/
structure Node.Lossless (text : String) (root : Node) : Prop where
  first : ∃ leaf ∈ root.leaves.head?, leaf.span.pos = 0
  last : ∃ token, root.leaves.getLast? = some (leaf token) ∧ token.kind = .endOfFile ∧
    token.span.stop = text.utf8ByteSize
  adjacent : root.leaves.IsChain fun leaf next => next.span.pos = leaf.span.stop
  lies : ∀ leaf ∈ root.leaves, leaf.span.Lies text
  covers : ∀ kind span marks children,
    branch kind span marks children ∈ root.descendants → span.Covers children
  concat : String.join (root.leaves.map fun leaf =>
    Text.slice text leaf.span.pos leaf.span.stop) = text

namespace Node

variable {text : String} {nodes : List Node} {i j : Nat}

theorem TileAll.covers (h : TileAll text nodes i j) (hne : nodes ≠ []) :
    (spanOf nodes).Covers nodes := by
  obtain ⟨first, rest, rfl⟩ := List.exists_cons_of_ne_nil hne
  refine ⟨⟨first, by simp, by simp, by simp⟩, ?_, h.adjacent⟩
  exact ⟨(first :: rest).getLast hne, by simp [List.getLast?_eq_some_getLast], by
    simp [spanOf, List.getLast?_eq_some_getLast]⟩

end Node

/-- The tree of a file keeps every character of its text. -/
theorem SyntaxTree.parseAs_lossless {variant : Variant} {file text : String} {tree : SyntaxTree}
    (h : SyntaxTree.parseAs variant file text = .ok tree) : tree.root.Lossless text := by
  obtain ⟨-, htiles, statements, token, hroot, hkind⟩ := parseAs_tiles h
  obtain ⟨hne, hleaves⟩ := htiles.leaves
  have hlast : tree.root.leaves.getLast? = some (leaf token) := by
    simp [hroot, group, leaves, leavesOf_append, leavesOf]
  obtain ⟨hfirst, hstop, -⟩ := hleaves.lies hne
  obtain ⟨⟨start, hstart, hpos, -⟩, ⟨last, hmem, hend⟩, hadjacent⟩ := hleaves.covers hne
  refine ⟨⟨start, hstart, by omega⟩, ⟨token, hlast, hkind, ?_⟩, hadjacent, ?_, ?_, ?_⟩
  · obtain rfl : leaf token = last := by simpa [hlast] using hmem
    exact hend.symm.trans hstop
  · intro part hpart
    obtain ⟨k, l, hpart⟩ := hleaves.mem hpart
    exact hpart.lies.2.2
  · intro kind span marks children hbranch
    obtain ⟨k, l, hbranch⟩ := htiles.descendants _ hbranch
    obtain ⟨rfl, -, hchildren, htile⟩ := tiles_branch.1 hbranch
    exact htile.covers hchildren
  · exact hleaves.join_slices.trans (Text.slice_all text)

/-- Type arguments that are taken apart, and tokens that are read a second time. -/
theorem SyntaxTree.parseAs_lossless_rescanned :
    ∃ tree, SyntaxTree.parseAs .jsx "a.tsx"
        "f<T>(/[/]/, `b$\x7bc\x7dd`) >>> <a-b c='é'>x</a-b>;" = .ok tree ∧
      tree.root.Lossless "f<T>(/[/]/, `b$\x7bc\x7dd`) >>> <a-b c='é'>x</a-b>;" :=
  SyntaxTree.exists_parsed (by decide +kernel) fun _ => SyntaxTree.parseAs_lossless

end Untype
