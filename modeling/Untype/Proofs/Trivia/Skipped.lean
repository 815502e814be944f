-- The comments that the scanner passes over. The comments that are listed
-- for the trivia of a token are the same, as long as no line comment ends at a
-- line break that is no newline.
import Untype.Proofs.Trivia.Lines

namespace Untype

open Text

/-! ## The record of the scanner -/

/-- Where a comment stands, and its kind. -/
structure Text.Extent where
  start : Nat
  stop : Nat
  kind : CommentKind
deriving DecidableEq

/-- The extent of a comment of characters that stand at `offset` in a text. -/
def Text.Comment.extent (offset : Nat) (comment : Comment) : Extent :=
  ⟨offset + comment.start, offset + comment.stop, comment.kind⟩

/-- A comment that the scanner has passed over, with the character behind it. -/
structure Skipped extends Extent where
  next : Option Char
deriving DecidableEq

/-- Where the scanner stops behind trivia, and the comments on its way. -/
structure Passage where
  stop : Cursor
  comments : List Skipped

def Passage.cons (comment : Skipped) (passage : Passage) : Passage :=
  { passage with comments := comment :: passage.comments }

/-- The way of the scanner through trivia, with a record of each comment where it ends. -/
def passage (mode : CommentMode) (offset : Nat) (cs : List Char) : Passage :=
  match mode, cs with
  | .inBlock start, [] => ⟨⟨offset, []⟩, [⟨⟨start, offset, .block⟩, none⟩]⟩
  | .inBlock start, '*' :: '/' :: rest =>
    .cons ⟨⟨start, offset + 2, .block⟩, rest.head?⟩ (passage .outside (offset + 2) rest)
  | .inBlock start, c :: rest => passage (.inBlock start) (offset + c.utf8Size) rest
  | .inLine start, [] => ⟨⟨offset, []⟩, [⟨⟨start, offset, .line⟩, none⟩]⟩
  | .inLine start, c :: rest =>
    if isLineBreak c then
      .cons ⟨⟨start, offset, .line⟩, some c⟩ (passage .outside (offset + c.utf8Size) rest)
    else
      passage (.inLine start) (offset + c.utf8Size) rest
  | .outside, [] => ⟨⟨offset, []⟩, []⟩
  | .outside, '/' :: '/' :: rest => passage (.inLine offset) (offset + 2) rest
  | .outside, '/' :: '*' :: rest => passage (.inBlock offset) (offset + 2) rest
  | .outside, c :: rest =>
    if isBlankOrLineBreak c then
      passage .outside (offset + c.utf8Size) rest
    else if c == '#' && offset == 0 && rest.head? == some '!' then
      passage (.inLine offset) (offset + 1) rest
    else
      ⟨⟨offset, c :: rest⟩, []⟩

def Text.CommentMode.trivia : CommentMode → TriviaMode
  | .outside => .between
  | .inLine _ => .lineComment
  | .inBlock start => .blockComment start

/-- The record changes nothing. -/
theorem triviaEnd_stop (mode : CommentMode) (flags : TokenFlags) (offset : Nat) (cs : List Char) :
    (triviaEnd mode.trivia flags offset cs).stop = (passage mode offset cs).stop := by
  fun_induction passage mode offset cs generalizing flags with
  | case1 | case4 | case7 => rfl
  | case2 offset start rest ih => exact ih flags
  | case3 offset start c rest hclose ih =>
    rw [CommentMode.trivia, triviaEnd]
    · exact ih _
    · exact hclose
  | case5 offset start c rest hc ih =>
    rw [CommentMode.trivia, triviaEnd, if_pos hc]
    exact ih _
  | case6 offset start c rest hc ih =>
    rw [CommentMode.trivia, triviaEnd, if_neg hc]
    exact ih _
  | case8 offset rest ih => exact ih flags
  | case9 offset rest ih => exact ih _
  | case10 offset c rest hline hblock hc ih =>
    rw [CommentMode.trivia, triviaEnd]
    · split
      · exact ih _
      · rw [if_pos (by simp_all [isBlankOrLineBreak])]
        exact ih _
    · exact hline
    · exact hblock
  | case11 offset c rest hline hblock hc hhash ih =>
    rw [CommentMode.trivia, triviaEnd, if_neg, if_neg, if_pos hhash]
    · exact ih _
    all_goals simp_all [isBlankOrLineBreak]
  | case12 offset c rest hline hblock hc hhash =>
    rw [CommentMode.trivia, triviaEnd, if_neg, if_neg, if_neg hhash]
    all_goals simp_all [isBlankOrLineBreak]

/-! ## The list -/

namespace Text

/-- Comments are listed in the same way wherever the characters stand. -/
def CommentMode.shift (distance : Nat) : CommentMode → CommentMode
  | .outside => .outside
  | .inLine start => .inLine (distance + start)
  | .inBlock start => .inBlock (distance + start)

theorem extent_commentsFrom (distance : Nat) (mode : CommentMode) (offset : Nat) (cs : List Char) :
    (commentsFrom mode offset cs).map (·.extent distance) =
      (commentsFrom (mode.shift distance) (distance + offset) cs).map (·.extent 0) := by
  fun_induction commentsFrom mode offset cs
  all_goals simp_all [CommentMode.shift, commentsFrom, Comment.extent, Nat.add_assoc]

end Text

/-- The comments of what the scanner passes over are those that it passes over, if and only if
each line comment goes on to a newline or to the end of the text. -/
theorem passage_listed (mode : CommentMode) (offset : Nat) (cs : List Char)
    (hbang : offset = 0 → cs.take 2 ≠ ['#', '!']) :
    ∃ front, cs = front ++ (passage mode offset cs).stop.rest ∧
      ((commentsFrom mode offset front).map (·.extent 0) =
          (passage mode offset cs).comments.map (·.toExtent) ↔
        ∀ comment ∈ (passage mode offset cs).comments, comment.kind = .line →
          ∀ c ∈ comment.next, isNewline c) := by
  fun_induction passage mode offset cs with
  | case1 offset start | case4 offset start | case7 offset =>
    exact ⟨[], rfl, by simp [commentsFrom, Comment.extent]⟩
  | case2 offset start rest ih =>
    obtain ⟨front, hfront, hlisted⟩ := ih (by omega)
    refine ⟨'*' :: '/' :: front, by simp [Passage.cons, ← hfront], ?_⟩
    simpa [commentsFrom, Passage.cons, Comment.extent] using hlisted
  | case3 offset start c rest hclose ih =>
    obtain ⟨front, hfront, hlisted⟩ := ih (by have := c.utf8Size_pos; omega)
    refine ⟨c :: front, by simp [← hfront], ?_⟩
    rwa [commentsFrom]
    intro front' hc hslash
    exact hclose _ hc (by rw [hfront, hslash, List.cons_append])
  | case5 offset start c rest hc ih =>
    obtain ⟨front, hfront, hlisted⟩ := ih (by have := c.utf8Size_pos; omega)
    refine ⟨c :: front, by simp [Passage.cons, ← hfront], ?_⟩
    cases hnewline : c == '\n' || c == '\r' with
    | true =>
      have hsize : c.utf8Size = 1 := by
        rcases (by simpa using hnewline : c = '\n' ∨ c = '\r') with rfl | rfl <;> rfl
      have hc : isNewline c := hnewline
      rw [hsize] at hlisted
      simpa [commentsFrom, hnewline, Passage.cons, Comment.extent, hc, hsize] using hlisted
    | false =>
      -- The listed comment goes on behind the line break.
      obtain ⟨body, back, newline, -, -, -, hread⟩ :=
        commentsFrom_inLine start (offset + c.utf8Size) front
      rw [commentsFrom, if_neg (Bool.eq_false_iff.1 hnewline), hread]
      have := c.utf8Size_pos
      simp only [Passage.cons, Comment.extent, List.map_cons, List.cons.injEq, Extent.mk.injEq]
      refine iff_of_false (by omega) fun h => ?_
      exact absurd (h _ List.mem_cons_self rfl c rfl) (Bool.eq_false_iff.1 hnewline)
  | case6 offset start c rest hc ih =>
    obtain ⟨front, hfront, hlisted⟩ := ih (by have := c.utf8Size_pos; omega)
    refine ⟨c :: front, by simp [← hfront], ?_⟩
    rwa [commentsFrom, if_neg]
    exact fun hnewline => hc (by simp_all [isLineBreak])
  | case8 offset rest ih =>
    obtain ⟨front, hfront, hlisted⟩ := ih (by omega)
    exact ⟨'/' :: '/' :: front, by simp [← hfront], hlisted⟩
  | case9 offset rest ih =>
    obtain ⟨front, hfront, hlisted⟩ := ih (by omega)
    exact ⟨'/' :: '*' :: front, by simp [← hfront], hlisted⟩
  | case10 offset c rest hline hblock hc ih =>
    obtain ⟨front, hfront, hlisted⟩ := ih (by have := c.utf8Size_pos; omega)
    refine ⟨c :: front, by simp [← hfront], ?_⟩
    rwa [commentsFrom]
    all_goals exact fun _ hslash _ => Phase.not_blank_slash hc hslash
  | case11 offset c rest hline hblock hc hhash ih =>
    obtain ⟨⟨rfl, rfl⟩, hmark⟩ : (c = '#' ∧ offset = 0) ∧ rest.head? = some '!' := by
      simpa using hhash
    obtain ⟨rest, rfl⟩ := List.head?_eq_some_iff.1 hmark
    exact absurd rfl (hbang rfl)
  | case12 offset c rest hline hblock hc hhash => exact ⟨[], rfl, by simp [commentsFrom]⟩

/-- Wherever a scanner was brought in a text that does not start with a line of its own kind, the
next token is found where the record of the comments on the way ends. The comments of the trivia in
front of the token are these, with the same ends and kinds and in this order, if and only if each
line comment among them goes on to a newline or to the end of the text. -/
theorem History.comments_trivia_iff (text : String) (requests : List Request)
    (hbang : text.toList.take 2 ≠ ['#', '!']) :
    let s := ((ofText text).afterAll requests).scanner.scan
    let way := passage .outside s.full.offset s.full.rest
    s.start = way.stop ∧
      ((comments (slice text s.full.offset s.start.offset)).map (·.extent s.full.offset) =
          way.comments.map (·.toExtent) ↔
        ∀ comment ∈ way.comments, comment.kind = .line → ∀ c ∈ comment.next, isNewline c) := by
  have hfits := (Fits.afterAll requests (.ofText text)).scanner
  generalize ((ofText text).afterAll requests).scanner = s at hfits
  intro token way
  have hstop : token.start = way.stop := triviaEnd_stop .outside {} s.here.offset s.here.rest
  refine ⟨hstop, ?_⟩
  obtain ⟨front, hfront, hlisted⟩ := passage_listed .outside _ _ (hfits.here_take hbang)
  rw [hfits.scan.slice_trivia (hstop ▸ hfront), comments, String.toList_ofList, extent_commentsFrom]
  exact hlisted

/-- Both comments in front of a name are listed, as one ends at a newline. -/
theorem History.comments_trivia_newline :
    let s := (ofText "// a\n/* b */ x").scanner.scan
    (comments (slice "// a\n/* b */ x" s.full.offset s.start.offset)).map (·.extent s.full.offset) =
      [⟨0, 4, .line⟩, ⟨5, 12, .block⟩] := by
  have hends : ∀ comment ∈ (passage .outside 0 "// a\n/* b */ x".toList).comments,
      comment.kind = .line → comment.next.all isNewline := by decide
  refine (comments_trivia_iff _ [] (by decide)).2.2 fun comment hcomment hkind c hc => ?_
  have hnext := hends comment hcomment hkind
  rwa [hc] at hnext

/-- A line comment that ends at a separator is listed together with what follows on its line. -/
theorem History.comments_trivia_separator :
    let s := (ofText "// a\u2028/* b */ x").scanner.scan
    s.start.offset = 15 ∧
      (passage .outside s.full.offset s.full.rest).comments.map (·.toExtent) =
        [⟨0, 4, .line⟩, ⟨7, 14, .block⟩] ∧
      (comments (slice "// a\u2028/* b */ x" s.full.offset s.start.offset)).map
        (·.extent s.full.offset) = [⟨0, 15, .line⟩] := by
  decide +kernel

end Untype
