-- Comments that follow kept code on its line. They stay when what follows
-- them goes, unless they are about that.
import Untype.Proofs.Erasure.Runs
import Untype.Proofs.Trivia.Attached

namespace Untype

open Untype.Node Untype.Text

namespace Erasure

variable {source : String}

/-- The trivia in front of the piece. -/
def Passed.trivia (source : String) (piece : Passed) : String :=
  piece.child.firstLeaf.leadingTrivia source

/-- Of the trivia of the first piece that leaves any, this is what stays. A comment at the end of
the line before the piece stays as a whole, unless the piece is a unit and the comment is about it,
or the trivia is cut inside the comment. -/
def Run.KeepsFirst (source : String) (run : Run) (kept : String) : Prop :=
  ∀ front piece back gap first, run.passed = front ++ piece :: back →
    (∀ other ∈ front, other.gap? source = none) → piece.gap? source = some (gap, first) →
    (∃ rest, piece.trivia source = kept ++ rest) ∧
    ∀ comment ∈ comments (piece.trivia source), IsTrailing (piece.trivia source) comment →
      (StandsIn kept (piece.trivia source) comment ↔
        ¬ (piece.removal = .unit ∧ IsAttached (piece.trivia source) comment) ∧
        ¬ (cutsGap (run.kept.leadingTrivia source) (run.kept.isToken .endOfFile) ∧
          CutsInto gap comment))

/-- The comments in front of the kept leaf and those at the ends of lines before it, as far as they
stand in front of the new leaf. -/
structure Run.KeepsTrailing (source : String) (run : Run) (new : Node) : Prop where
  text : leafText source new = leafText source run.kept
  /-- In front of the new leaf stand the comments of tokens removed inside a line, what stays of one
  other piece, and the end of the leaf's own trivia with all its comments. -/
  trivia : ∃ lead ∈ ["", " ", ";"], ∃ sep ∈ ["", " "], ∃ kept rest, new.leadingTrivia source =
    lead ++ movedComments source run.moved ++ sep ++ kept ++ rest ∧
      (run.gap? source = none → kept = "") ∧ run.KeepsFirst source kept ∧
      (∃ lost, run.kept.leadingTrivia source = lost ++ rest) ∧
      ∀ comment ∈ comments (run.kept.leadingTrivia source),
        (comment.text (run.kept.leadingTrivia source)).toList <:+: rest.toList
  /-- Comments of tokens removed inside a line stay, up to white space at their ends. -/
  moved : ∀ token ∈ run.moved, ∀ comment ∈ comments (token.leadingTrivia source),
    ∃ body blanks, (comment.text (token.leadingTrivia source)).toList = body ++ blanks ∧
      (∀ c ∈ blanks, isWhiteSpace c) ∧ body <:+: (movedComments source run.moved).toList

/-- The trivia of a piece starts with what may stay of it, and only comments about a removed unit
are not in there. -/
theorem Passed.gap?_eq_some {gap : String} {piece : Passed} {first : Bool}
    (h : piece.gap? source = some (gap, first)) :
    ∃ rest, piece.trivia source = gap ++ rest ∧ ∀ comment ∈ comments (piece.trivia source),
      (comment.stop ≤ gap.utf8ByteSize ↔
        ¬ (piece.removal = .unit ∧ IsAttached (piece.trivia source) comment)) := by
  obtain ⟨child, removal, first'⟩ := piece
  cases removal with
  | inside | silent => cases h
  | modifier | opening =>
    cases h
    refine ⟨"", String.append_empty.symm, fun comment hcomment => ?_⟩
    obtain ⟨front, back, htext, -, hstop, -⟩ := comments_stand hcomment
    have hle : comment.stop ≤ (child.firstLeaf.leadingTrivia source).utf8ByteSize := by
      rw [hstop, ← byteLength_toList]
      exact htext ▸ byteLength_append _ back ▸ Nat.le_add_right _ _
    exact iff_of_true hle (by simp)
  | unit =>
    cases h
    obtain ⟨rest, htrivia, hholds⟩ := unitGap_holds (child.firstLeaf.leadingTrivia source)
    refine ⟨rest, htrivia, fun comment hcomment => (hholds comment hcomment).trans ?_⟩
    simp [Passed.trivia]

theorem insideComments_isInfix {tokens : List Node} {token : Node} (h : token ∈ tokens) :
    (insideComments (token.leadingTrivia source)).toList <:+:
      (movedComments source tokens).toList := by
  induction tokens with
  | nil => cases h
  | cons first tokens ih =>
    rw [movedComments, String.toList_append]
    rcases List.mem_cons.1 h with rfl | h
    · exact (List.prefix_append _ _).isInfix
    · exact (ih h).trans (List.suffix_append _ _).isInfix

theorem Run.keepsFirst {run : Run} {kept rest : String}
    (h : ∀ gap first, run.gap? source = some (gap, first) →
      IsJoined gap (run.kept.leadingTrivia source) kept rest (run.kept.isToken .endOfFile)) :
    run.KeepsFirst source kept := by
  intro front piece back gap first hpassed hfront hpiece
  have hgap : run.gap? source = some (gap, first) := by
    rw [Run.gap?, hpassed, List.findSome?_append, List.findSome?_eq_none_iff.2 hfront,
      List.findSome?_cons, hpiece]
    rfl
  have hjoined := h gap first hgap
  obtain ⟨line, hline⟩ := hjoined.front
  obtain ⟨more, htrivia, hattached⟩ := Passed.gap?_eq_some hpiece
  have hkept : piece.trivia source = kept ++ (line ++ more) := by
    rw [htrivia, hline, String.append_assoc]
  refine ⟨⟨_, hkept⟩, fun comment hcomment htrailing => ?_⟩
  rw [← hattached comment hcomment]
  by_cases hstop : comment.stop ≤ gap.utf8ByteSize
  · rw [hjoined.standsIn_iff htrivia hcomment hstop htrailing]
    simp [hstop]
  · rw [standsIn_iff hkept hcomment]
    have hsize : kept.utf8ByteSize ≤ gap.utf8ByteSize := by
      rw [hline, String.utf8ByteSize_append]
      exact Nat.le_add_right _ _
    exact iff_of_false (by omega) fun h => hstop h.1

theorem Run.Delivers.keepsTrailing {run : Run} {new : Node} (h : run.Delivers source new) :
    run.KeepsTrailing source new := by
  obtain ⟨lead, hlead, sep, hsep, kept, rest, htrivia, hnone, hsome⟩ := h.keepsGap.trivia
  have hown : (∃ lost, run.kept.leadingTrivia source = lost ++ rest) ∧
      ∀ comment ∈ comments (run.kept.leadingTrivia source),
        (comment.text (run.kept.leadingTrivia source)).toList <:+: rest.toList := by
    cases hgap : run.gap? source with
    | none =>
      rw [(hnone hgap).2]
      refine ⟨⟨"", String.empty_append.symm⟩, fun comment hcomment => ?_⟩
      obtain ⟨front, back, htext, -⟩ := comments_stand hcomment
      exact ⟨front, back, htext.symm⟩
    | some gap =>
      have hjoined := hsome gap.1 gap.2 hgap
      obtain ⟨lost, hlost, -⟩ := hjoined.ownStays
      exact ⟨⟨lost, hlost⟩, fun comment hcomment => hjoined.holdsOwn hcomment⟩
  refine ⟨h.text, ⟨lead, hlead, sep, hsep, kept, rest, htrivia, fun hgap => (hnone hgap).1,
    Run.keepsFirst hsome, hown⟩, fun token htoken comment hcomment => ?_⟩
  obtain ⟨front, body, blanks, rest', back, -, -, htext, hpiece, hblanks, -⟩ :=
    insideComments_staysIn hcomment
  refine ⟨body, blanks, htext, fun c hc => ?_, ?_⟩
  · exact hblanks (List.ne_nil_of_mem hc) c (List.mem_append_left _ hc)
  · exact .trans ⟨front, back, hpiece.symm⟩ (insideComments_isInfix htoken)

end Erasure

open Erasure

/-- A comment that follows kept code on its line stays when the statement or member behind it goes
if and only if that is the first piece removed there which leaves trivia, the comment is not about
it (a line or documentation comment, no directive, with no blank line up to what it is about), and
the trivia is not cut at a newline inside the comment, as happens where the next kept leaf has a
newline and no comment. Later pieces leave nothing. The comments in front of kept leaves stay, and
so do those of tokens that are removed inside a line. -/
theorem SyntaxTree.erase_keeps_trailing_comments {variant : Variant} {file text : String}
    {tree : SyntaxTree} (hparse : SyntaxTree.parseAs variant file text = .ok tree)
    (options : Options) :
    (∀ piece removal, Removes (.ofTree options text tree.root) .none tree.root piece removal →
      ∃ run ∈ tree.runs options, ∃ first, ⟨piece, removal, first⟩ ∈ run.passed) ∧
    (tree.erase options).tree.text = spell text (tree.erase options).tree.root.leaves ∧
    List.Forall₂ (Run.KeepsTrailing text) (tree.runs options)
      (tree.erase options).tree.root.leaves := by
  obtain ⟨htext, hdelivers⟩ := SyntaxTree.erase_delivers hparse options
  exact ⟨fun piece removal hpiece => SyntaxTree.mem_runs hparse options hpiece, htext,
    hdelivers.imp fun run new h => h.keepsTrailing⟩

/-- A block comment stays in front of a removed interface, and a line comment in front of a blank
line. -/
theorem SyntaxTree.erase_keeps_trailing_comments_interface :
    ∃ tree, SyntaxTree.parseAs .standard "a.ts"
        "a() /* b */\ninterface I \x7b\x7d\nc() // d\n\ntype T = 1\ne()" = .ok tree ∧
      (tree.erase {}).tree.text = "a() /* b */\nc() // d\n\ne()" ∧
      List.Forall₂ (Run.KeepsTrailing
        "a() /* b */\ninterface I \x7b\x7d\nc() // d\n\ntype T = 1\ne()") (tree.runs {})
        (tree.erase {}).tree.root.leaves :=
  SyntaxTree.exists_checked_and (by decide +kernel) fun _ hparse _ =>
    (SyntaxTree.erase_keeps_trailing_comments hparse {}).2.2

/-- A block comment behind kept code is lost in front of the second of two removed interfaces, and
it is cut in two at its own newline in front of one. -/
theorem SyntaxTree.erase_loses_trailing_comment :
    (∃ tree, SyntaxTree.parseAs .standard "a.ts"
        "foo(); interface A \x7b\x7d /* c */ interface B \x7b\x7d\nbar()" = .ok tree ∧
      (tree.erase {}).tree.text = "foo();\nbar()") ∧
    ∃ tree, SyntaxTree.parseAs .standard "a.ts" "foo() /* a\n b */ interface I \x7b\x7d\nbar()" =
        .ok tree ∧
      (tree.erase {}).tree.text = "foo() /* a\nbar()" :=
  ⟨SyntaxTree.exists_checked (by decide +kernel), SyntaxTree.exists_checked (by decide +kernel)⟩

end Untype
