-- What a text opens with that is no code: a byte order mark, or a first line
-- that starts with `#!`. It belongs to the trivia of the first token, which
-- is cut behind it, if at all.
import Untype.Proofs.Trivia.Attached
import Untype.Proofs.Trivia.Lines

namespace Untype

open Text

variable {text : String}

namespace Text

/-- The first line, with the line break that ends it. -/
def firstLine : List Char → List Char
  | [] => []
  | c :: rest => if isLineBreak c then [c] else c :: firstLine rest

/-- A byte order mark, or a first line that starts with `#!`. -/
def opening : List Char → List Char
  | '\ufeff' :: _ => ['\ufeff']
  | '#' :: '!' :: rest => '#' :: '!' :: firstLine rest
  | _ => []

/-- Only the last character of a line ends it. -/
theorem firstLine_dropLast (cs : List Char) :
    ∀ c ∈ (firstLine cs).dropLast, isLineBreak c = false := by
  induction cs with
  | nil => simp [firstLine]
  | cons c cs ih =>
    rw [firstLine]
    split
    · simp
    · rename_i hc
      cases hline : firstLine cs with
      | nil => simp
      | cons d line =>
        rw [hline] at ih
        rw [List.dropLast_cons_cons]
        exact List.forall_mem_cons.2 ⟨by simpa using hc, ih⟩

theorem opening_dropLast (cs : List Char) :
    ∀ c ∈ (opening cs).dropLast, isNewline c = false := by
  unfold opening
  split
  · simp
  · rename_i rest
    have hline : ∀ c ∈ (firstLine ('#' :: '!' :: rest)).dropLast, isLineBreak c = false :=
      firstLine_dropLast _
    intro c hc
    have hbreak := hline c hc
    simp_all [isNewline, isLineBreak]
  · simp

/-- An opening is the whole text, or ends with no sign of a comment. -/
theorem opening_getLast? (cs : List Char) :
    opening cs = cs ∨ (opening cs).getLast? ≠ some '/' := by
  have hline : ∀ cs, firstLine cs = cs ∨ ∃ c ∈ (firstLine cs).getLast?, isLineBreak c := by
    intro cs
    induction cs with
    | nil => exact .inl rfl
    | cons c cs ih =>
      rw [firstLine]
      split
      · exact .inr ⟨c, rfl, ‹_›⟩
      · refine ih.imp (congrArg (c :: ·)) ?_
        rintro ⟨d, hd, hbreak⟩
        exact ⟨d, by rw [Option.mem_def] at hd ⊢; simp [List.getLast?_cons, hd], hbreak⟩
  unfold opening
  split
  · exact .inr (by decide)
  · rename_i rest
    refine (hline ('#' :: '!' :: rest)).imp id ?_
    rintro ⟨c, hc, hbreak⟩ hslash
    obtain rfl : c = '/' := Option.some.inj (hc.symm.trans hslash)
    exact absurd hbreak (by decide)
  · exact .inr (by simp)

end Text

/-! ## The trivia of the first token -/

theorem triviaEnd_firstLine (flags : TokenFlags) (offset : Nat) (cs : List Char) :
    ∃ front, cs = front ++ (triviaEnd .lineComment flags offset cs).stop.rest ∧
      firstLine cs <+: front := by
  induction cs generalizing flags offset with
  | nil => exact ⟨[], by simp [triviaEnd], List.prefix_rfl⟩
  | cons c cs ih =>
    rw [firstLine, triviaEnd]
    split
    · obtain ⟨front, hfront, -⟩ := leads_triviaEnd .between { flags with lineBreak := true }
        (offset + c.utf8Size) cs
      exact ⟨c :: front, congrArg (c :: ·) hfront, ⟨front, rfl⟩⟩
    · obtain ⟨front, hfront, hline⟩ := ih flags (offset + c.utf8Size)
      exact ⟨c :: front, congrArg (c :: ·) hfront, (List.prefix_cons_inj c).2 hline⟩

theorem triviaEnd_opening (flags : TokenFlags) (cs : List Char) :
    ∃ front, cs = front ++ (triviaEnd .between flags 0 cs).stop.rest ∧ opening cs <+: front := by
  unfold opening
  split
  · rename_i rest
    obtain ⟨front, hfront, -⟩ := leads_triviaEnd .between flags (0 + '\ufeff'.utf8Size) rest
    refine ⟨'\ufeff' :: front, ?_, ⟨front, rfl⟩⟩
    rw [triviaEnd, if_neg (by decide), if_pos (by decide)]
    · exact congrArg _ hfront
    all_goals simp
  · rename_i rest
    obtain ⟨front, hfront, hline⟩ := triviaEnd_firstLine flags (0 + 1) ('!' :: rest)
    refine ⟨'#' :: front, ?_, (List.prefix_cons_inj _).2 hline⟩
    rw [triviaEnd, if_neg (by decide), if_neg (by decide), if_pos (by rfl)]
    · exact congrArg _ hfront
    all_goals simp
  · obtain ⟨front, hfront, -⟩ := leads_triviaEnd .between flags 0 cs
    exact ⟨front, hfront, List.nil_prefix⟩

/-- The opening of a text belongs to the trivia of its first token. -/
theorem Scanner.Reached.opening {s : Scanner} (h : Reached text s) (hfull : s.full.offset = 0) :
    ∃ front, text.toList = front ++ s.start.rest ∧ opening text.toList <+: front := by
  have hplace : ∀ {s : Scanner}, Reached text s → s.full.offset = 0 →
      s.full = Cursor.ofText text :=
    fun h hfull => h.fits.full.eq_of_offset (.refl _) hfull
  induction h using Reached.induct with
  | start => exact triviaEnd_opening {} text.toList
  | @scan s h ih =>
    have hhere : s.here = Cursor.ofText text := hplace h.scan hfull
    obtain ⟨front, hfront, hopening⟩ := triviaEnd_opening {} text.toList
    refine ⟨front, ?_, hopening⟩
    change _ = front ++ (triviaEnd .between {} s.here.offset s.here.rest).stop.rest
    rw [hhere]
    exact hfront
  | @scanJsx s h ih =>
    -- The token before it ends where it starts, at the start of the text.
    rw [scanJsx_full] at hfull
    have hstart := h.fits.here.le
    have hbefore := h.fits.start.le
    have hsame : s.start = s.here := (h.fits.full.trans h.fits.start).eq_of_offset h.fits.toHere
      (by omega)
    rw [scanJsx_start, ← hsame]
    exact ih (by omega)
  | @reread s _ _ hadvance ih =>
    rw [(hadvance.place s).1] at hfull
    rw [(hadvance.place s).2]
    exact ih hfull

theorem Node.Tiles.opening {node : Node} {j : Nat} (h : node.Tiles text 0 j) :
    (node.firstLeaf.leadingTrivia text).toList <+: text.toList ∧
      opening text.toList <+: (node.firstLeaf.leadingTrivia text).toList := by
  obtain ⟨token, k, hfirst, -, htoken⟩ := firstLeaf_of_tiles h
  obtain ⟨hread, hpos, -⟩ : token.Read text ∧ token.span.pos = 0 ∧ token.span.stop = k := by
    simpa only [Tiles] using htoken
  obtain ⟨s, hs, -, hspan⟩ := hread.reading
  have hfull : s.full.offset = 0 := by rw [← hpos, hspan]
  obtain ⟨front, hfront, hopening⟩ := hs.opening hfull
  have hplace : s.full = Cursor.ofText text := hs.fits.full.eq_of_offset (.refl _) hfull
  have hslice : slice text s.full.offset s.start.offset = .ofList front :=
    hs.fits.slice_trivia (by rw [hplace]; exact hfront)
  rw [hfirst, leadingTrivia, hread.bare, hspan, Option.getD_none, hslice, String.toList_ofList]
  exact ⟨⟨_, hfront.symm⟩, hopening⟩

namespace Erasure

/-! ## What is left of it -/

variable {front : List Char} {trivia gap own : String} {atEnd : Bool}

/-- The trivia in front of a removed piece is not cut in front of its first comment. -/
theorem isPrefix_unitGap (hfront : front <+: trivia.toList) (hopens : opensComment front = false)
    (hlast : front = trivia.toList ∨ front.getLast? ≠ some '/') :
    front <+: (unitGap trivia).toList := by
  unfold unitGap
  rcases cutBefore_cases trivia trivia.utf8ByteSize (comments trivia).reverse with
    hall | ⟨comment, hcomment, hstart⟩
  · rwa [hall, slice_all]
  · have hmem := List.mem_reverse.1 hcomment
    obtain ⟨before, back, htext, hoffset, -⟩ := comments_stand hmem
    obtain ⟨d, body, hbody, hopen⟩ := (comments_formed hmem).1
    rw [hbody, List.append_assoc] at htext
    have hwhole : trivia.toList = [] ++ before ++ ('/' :: d :: body ++ back) := htext
    have hslice : slice trivia 0 (byteLength before) = .ofList before := slice_eq_ofList hwhole
    rw [hstart, hoffset, hslice, String.toList_ofList]
    obtain ⟨rest, hrest⟩ := hfront
    rw [htext] at hrest
    rcases List.append_eq_append_iff.1 hrest with ⟨more, rfl, -⟩ | ⟨more, rfl, hmore⟩
    · exact List.prefix_append _ _
    -- Otherwise the comment starts in the front, with its second sign or without it.
    rcases more with _ | ⟨c, _ | ⟨e, more⟩⟩
    · simp
    · obtain rfl : '/' = c := by simpa using congrArg List.head? hmore
      rcases hlast with hwhole | hlast
      · rw [htext] at hwhole
        simp at hwhole
      · simp at hlast
    · obtain ⟨rfl, rfl, -⟩ : '/' = c ∧ d = e ∧ body ++ back = more ++ rest := by simpa using hmore
      rw [opensComment_of_opensHere ⟨d, more, rfl, hopen⟩] at hopens
      cases hopens

/-- What is in front of a removed piece comes to stand in front of the next kept leaf. Else only the
own trivia of that leaf does. -/
def handsOn (gap own : String) (atEnd : Bool) : Bool :=
  hasComments gap ||
    !atEnd && (hasComments own || gap.toList.any isNewline || !own.toList.any isNewline)

theorem isPrefix_of_split {before after : String} (hfront : front <+: gap.toList)
    (hline : ∀ c ∈ front.dropLast, isNewline c = false)
    (hsplit : splitAtLastNewline? gap = some (before, after)) : front <+: before.toList := by
  obtain ⟨hgap, init, c, hbefore, hc⟩ := splitAtLastNewline?_eq_some hsplit
  rcases List.prefix_or_prefix_of_prefix hfront ⟨after.toList, hgap.symm⟩ with h | ⟨more, rfl⟩
  · exact h
  · cases more with
    | nil => simp
    | cons d more =>
      have hmem : c ∈ (before.toList ++ d :: more).dropLast := by
        rw [List.dropLast_append_of_ne_nil (by simp), hbefore]
        simp
      rw [hline c hmem] at hc
      cases hc

theorem isPrefix_join (hfront : front <+: gap.toList)
    (hline : ∀ c ∈ front.dropLast, isNewline c = false) (h : handsOn gap own false) :
    front <+: (join gap own true).toList := by
  have happend : ∀ more : String, front <+: (gap ++ more).toList := fun more => by
    rw [String.toList_append]
    exact hfront.trans (List.prefix_append _ _)
  unfold join
  simp only [Bool.not_true, Bool.false_and, Bool.false_eq_true, if_false]
  split
  · rename_i hempty
    rw [String.isEmpty_iff.1 hempty] at hfront
    rw [List.prefix_nil.1 hfront]
    exact List.nil_prefix
  · split
    · exact happend _
    · rename_i hown
      split
      · rename_i hgap _
        rw [String.toList_append]
        exact (isPrefix_of_split hfront hline hgap).trans (List.prefix_append _ _)
      · rename_i hgap hsplit
        rw [if_pos]
        · exact hfront
        · simpa [handsOn, hown, any_isNewline_eq_false hgap, any_isNewline_of_split hsplit] using h
      · exact hfront

theorem join_of_not_handsOn (hgap : gap ≠ "") (h : handsOn gap own false = false) :
    join gap own true = own := by
  simp only [handsOn, Bool.not_false, Bool.true_and, Bool.or_eq_false_iff, Bool.not_eq_false'] at h
  obtain ⟨hnone, ⟨hown, hline⟩, hbreak⟩ := h
  have hempty : ¬gap.isEmpty := by simpa [String.isEmpty_iff] using hgap
  unfold join
  simp only [Bool.not_true, Bool.false_and, Bool.false_eq_true, if_false, if_neg hempty,
    hown, hnone]
  split
  · rename_i hsplit _
    rw [any_isNewline_of_split hsplit] at hline
    cases hline
  · rfl
  · rename_i hsplit
    rw [any_isNewline_eq_false hsplit] at hbreak
    cases hbreak

/-- What waits in front of the first leaf that is kept, with nothing moved there. -/
theorem isPrefix_apply (hfront : front <+: gap.toList) (hne : front ≠ [])
    (hline : ∀ c ∈ front.dropLast, isNewline c = false) (own : String) (atEnd : Bool) :
    if handsOn gap own atEnd then
      front <+: (({ gap := some (gap, true) } : Pending).apply own atEnd).toList
    else ({ gap := some (gap, true) } : Pending).apply own atEnd = own := by
  have happly : ({ gap := some (gap, true) } : Pending).apply own atEnd =
      if atEnd then joinAtEnd gap own else join gap own true := rfl
  have hgap : gap ≠ "" := by
    rintro rfl
    exact hne (List.prefix_nil.1 hfront)
  rw [happly]
  cases atEnd with
  | true =>
    simp only [handsOn, Bool.not_true, Bool.false_and, Bool.or_false, if_true, joinAtEnd]
    split
    · rw [String.toList_append]
      exact hfront.trans (List.prefix_append _ _)
    · rfl
  | false =>
    cases hands : handsOn gap own false with
    | true => exact isPrefix_join hfront hline hands
    | false => exact join_of_not_handsOn hgap hands

end Erasure

end Untype
