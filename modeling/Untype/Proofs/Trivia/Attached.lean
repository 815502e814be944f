-- Comments about what follows them. Of the trivia in front of a removed unit
-- only such comments go.
import Untype.Proofs.Trivia.Comments

namespace Untype

open Text

namespace Text

variable {comment : Comment} {offset : Nat} {cs : List Char} {mode : CommentMode} {text : String}

/-! ## The order of comments -/

theorem start_lt_stop (h : comment ∈ comments text) : comment.start < comment.stop := by
  obtain ⟨front, back, -, hstart, hstop, -⟩ := comments_stand h
  obtain ⟨d, body, hbody, -⟩ := (comments_formed h).1
  rw [hstart, hstop, hbody, byteLength_append, byteLength_cons]
  have hslash : 0 < '/'.utf8Size := by decide
  omega

end Text

namespace Erasure

variable {trivia gap rest own kept : String} {before after gone : List Comment} {comment : Comment}
  {atEnd : Bool}

/-! ## Comments about a unit -/

/-- The comment is about what stands at the offset `next`: it is a line or a documentation comment,
no directive, and no blank line comes in between. -/
structure IsAbout (trivia : String) (comment : Comment) (next : Nat) : Prop where
  near : breakCount (slice trivia comment.stop next) < 2
  plain : comment.isDirective trivia = false
  form : comment.kind = .line ∨ comment.isDocumentation trivia

/-- Where the first of these comments starts, the end of the trivia if there is none. -/
def startOf (trivia : String) (comments : List Comment) : Nat :=
  (comments.head?.map Comment.start).getD trivia.utf8ByteSize

/-- Each of the comments is about the next one, and the last one about what follows the trivia. -/
def AllAbout (trivia : String) : List Comment → Prop
  | [] => True
  | comment :: rest => IsAbout trivia comment (startOf trivia rest) ∧ AllAbout trivia rest

/-- The comment is about the unit behind the trivia, and so are all comments behind it. -/
def IsAttached (trivia : String) (comment : Comment) : Prop :=
  ∃ before after, comments trivia = before ++ comment :: after ∧ AllAbout trivia (comment :: after)

theorem AllAbout.isAttached (h : AllAbout trivia after)
    (hsplit : comments trivia = before ++ after) :
    ∀ comment ∈ after, IsAttached trivia comment := by
  induction after generalizing before with
  | nil => exact nofun
  | cons first after ih =>
    intro comment hcomment
    rcases List.mem_cons.1 hcomment with rfl | hcomment
    · exact ⟨before, after, hsplit, h⟩
    · rw [List.append_cons] at hsplit
      exact ih h.2 hsplit comment hcomment

/-- The trivia of a unit is cut in front of the comments about it. The comments before the cut come
last one first. -/
theorem cutBefore_eq (before : List Comment) (h : AllAbout trivia after) :
    ∃ kept gone, before.reverse = kept ++ gone ∧ AllAbout trivia (gone ++ after) ∧
      cutBefore trivia (startOf trivia after) before = startOf trivia (gone ++ after) := by
  have hstop : ∃ kept gone, before.reverse = kept ++ gone ∧ AllAbout trivia (gone ++ after) ∧
      startOf trivia after = startOf trivia (gone ++ after) :=
    ⟨before.reverse, [], by simp, h, rfl⟩
  induction before generalizing after with
  | nil => exact hstop
  | cons comment before ih =>
    rw [cutBefore]
    split
    · exact hstop
    rename_i hnear
    split
    · exact hstop
    rename_i hplain
    split
    · rename_i hform
      have habout : IsAbout trivia comment (startOf trivia after) :=
        ⟨by omega, by simpa using hplain, by simpa using hform⟩
      have hall : AllAbout trivia (comment :: after) := ⟨habout, h⟩
      obtain ⟨kept, gone, hsplit, hgone, hcut⟩ := ih hall ⟨before.reverse, [], by simp, hall, rfl⟩
      refine ⟨kept, gone ++ [comment], ?_, by simpa using hgone,
        by rw [List.append_assoc]; exact hcut⟩
      rw [List.reverse_cons, hsplit, List.append_assoc]
    · exact hstop

/-- Where the first of some comments starts, the text can be cut, and what is in front holds the
comments before. -/
theorem slice_startOf (h : comments trivia = before ++ after) :
    (∃ rest, trivia = slice trivia 0 (startOf trivia after) ++ rest) ∧
      (slice trivia 0 (startOf trivia after)).utf8ByteSize = startOf trivia after ∧
      (∀ comment ∈ before, comment.stop ≤ startOf trivia after) ∧
      ∀ comment ∈ after, startOf trivia after ≤ comment.start := by
  cases after with
  | nil =>
    have hall : slice trivia 0 (startOf trivia []) = trivia := slice_all trivia
    rw [hall]
    refine ⟨⟨"", String.append_empty.symm⟩, rfl, fun comment hcomment => ?_, by simp⟩
    obtain ⟨front, back, htext, -, hstop, -⟩ :=
      comments_stand (h ▸ List.mem_append_left _ hcomment : comment ∈ comments trivia)
    rw [hstop, show startOf trivia [] = trivia.utf8ByteSize from rfl, ← byteLength_toList, htext,
      byteLength_append _ back]
    exact Nat.le_add_right _ _
  | cons first after =>
    have hfirst : first ∈ comments trivia := h ▸ List.mem_append_right _ List.mem_cons_self
    obtain ⟨front, back, htext, hstart, -, -⟩ := comments_stand hfirst
    rw [List.append_assoc] at htext
    have hslice : slice trivia (byteLength []) (byteLength ([] ++ front)) = .ofList front :=
      slice_eq_ofList htext
    have hcut : slice trivia 0 (startOf trivia (first :: after)) = .ofList front := by
      rw [← hslice, List.nil_append, ← hstart]
      rfl
    have hordered : (comments trivia).Pairwise fun comment later => comment.stop ≤ later.start :=
      (commentsFrom_follow 0 trivia.toList).ordered
    obtain ⟨-, hafter, hbefore⟩ := List.pairwise_append.1 (h ▸ hordered)
    rw [hcut, utf8ByteSize_ofList, ← hstart]
    refine ⟨⟨.ofList ((first.text trivia).toList ++ back), ?_⟩, rfl,
      fun comment hcomment => hbefore comment hcomment first List.mem_cons_self,
      fun comment hcomment => ?_⟩
    · rw [← String.ofList_append, ← htext, String.ofList_toList]
    · rcases List.mem_cons.1 hcomment with rfl | hcomment
      · exact Nat.le_refl _
      · exact (start_lt_stop hfirst).le.trans ((List.pairwise_cons.1 hafter).1 comment hcomment)

theorem AllAbout.of_append (h : AllAbout trivia (before ++ after)) : AllAbout trivia after := by
  induction before with
  | nil => exact h
  | cons first before ih => exact ih h.2

/-- The scan from the end comes past every comment about the unit. -/
theorem cutBefore_append (before : List Comment) (h : AllAbout trivia (gone.reverse ++ after)) :
    cutBefore trivia (startOf trivia after) (gone ++ before) =
      cutBefore trivia (startOf trivia (gone.reverse ++ after)) before := by
  induction gone generalizing after with
  | nil => rfl
  | cons comment gone ih =>
    rw [List.reverse_cons, List.append_assoc] at h ⊢
    have habout : IsAbout trivia comment (startOf trivia after) := h.of_append.1
    rw [List.cons_append, cutBefore, if_neg (Nat.not_le.2 habout.near),
      if_neg (by simp [habout.plain]), if_pos (by simpa using habout.form)]
    exact ih h

/-- What stays of the trivia of a removed unit holds the comments that are not about the unit. -/
theorem unitGap_holds (trivia : String) :
    ∃ rest, trivia = unitGap trivia ++ rest ∧ ∀ comment ∈ comments trivia,
      (comment.stop ≤ (unitGap trivia).utf8ByteSize ↔ ¬ IsAttached trivia comment) := by
  obtain ⟨kept, gone, hsplit, hgone, hcut⟩ :=
    cutBefore_eq (comments trivia).reverse (show AllAbout trivia [] from trivial)
  rw [List.reverse_reverse] at hsplit
  rw [List.append_nil] at hgone hcut
  obtain ⟨⟨rest, htrivia⟩, hsize, hkept, -⟩ := slice_startOf hsplit
  have hgap : unitGap trivia = slice trivia 0 (startOf trivia gone) := congrArg _ hcut
  rw [hgap, hsize]
  refine ⟨rest, htrivia, fun comment hcomment => ⟨fun hstop hattached => ?_, fun hfree => ?_⟩⟩
  · obtain ⟨before, after, hcomments, habout⟩ := hattached
    obtain ⟨kept', gone', hbefore, -, hcut'⟩ := cutBefore_eq before.reverse habout
    have hpast : cutBefore trivia (startOf trivia [])
        ((comment :: after).reverse ++ before.reverse) =
          cutBefore trivia (startOf trivia (comment :: after)) before.reverse := by
      rw [cutBefore_append before.reverse (by simpa using habout), List.reverse_reverse,
        List.append_nil]
    rw [← List.reverse_append, ← hcomments, hcut', hcut] at hpast
    rw [List.reverse_reverse] at hbefore
    rw [hbefore, List.append_assoc] at hcomments
    have hle := (slice_startOf hcomments).2.2.2 comment (by simp)
    have hlt := start_lt_stop hcomment
    omega
  · rcases List.mem_append.1 (hsplit ▸ hcomment) with hmem | hmem
    · exact hkept comment hmem
    · exact absurd (hgone.isAttached hsplit comment hmem) hfree

/-! ## Comments at the end of a line -/

/-- The gap would be cut inside the comment: there its last newline is. -/
def CutsInto (gap : String) (comment : Comment) : Prop :=
  ∃ before line, splitAtLastNewline? gap = some (before, line) ∧
    comment.start < before.utf8ByteSize ∧ before.utf8ByteSize < comment.stop

/-- The comment starts on the first line of the trivia. -/
def IsTrailing (trivia : String) (comment : Comment) : Prop :=
  IsLine (slice trivia 0 comment.start).toList

theorem front_of_comment (htrivia : trivia = gap ++ rest) (h : comment ∈ comments trivia)
    (hstop : comment.stop ≤ gap.utf8ByteSize) :
    ∃ front back, gap.toList = front ++ (comment.text trivia).toList ++ back ∧
      comment.stop = byteLength (front ++ (comment.text trivia).toList) ∧
      comment.start = byteLength front ∧ slice trivia 0 comment.start = .ofList front := by
  obtain ⟨front, back, htext, hstart, hend, -⟩ := comments_stand h
  have hslice : slice trivia (byteLength []) (byteLength ([] ++ front)) = .ofList front :=
    slice_eq_ofList (by rw [List.nil_append, htext, List.append_assoc])
  have htext' : front ++ (comment.text trivia).toList ++ back = gap.toList ++ rest.toList := by
    rw [← htext, ← String.toList_append, ← htrivia]
  rw [hend, ← byteLength_toList] at hstop
  obtain ⟨middle, hgap, -⟩ := front_of_le htext' hstop
  exact ⟨front, middle, hgap, hend, hstart, by rw [hstart]; exact hslice⟩

/-- A comment at the end of a line starts before the place where the trivia is cut. A line comment
ends there as well. -/
theorem IsTrailing.stop_le_iff {before line : String} (h : IsTrailing trivia comment)
    (htrivia : trivia = gap ++ rest) (hmem : comment ∈ comments trivia)
    (hstop : comment.stop ≤ gap.utf8ByteSize)
    (hcut : splitAtLastNewline? gap = some (before, line)) :
    comment.stop ≤ before.utf8ByteSize ↔ ¬ CutsInto gap comment := by
  obtain ⟨front, back, hgap, -, hstart, hslice⟩ := front_of_comment htrivia hmem hstop
  obtain ⟨hsplit, init, c, hbefore, hc⟩ := splitAtLastNewline?_eq_some hcut
  have hline : IsLine front := by rwa [IsTrailing, hslice, String.toList_ofList] at h
  have hstarts : comment.start < before.utf8ByteSize := by
    rw [hstart, ← byteLength_toList]
    refine Nat.lt_of_not_le fun hle => ?_
    rw [hgap, List.append_assoc] at hsplit
    -- The newline at the end of what stays lies in no line before it.
    obtain ⟨middle, rfl, -⟩ := front_of_le hsplit.symm hle
    exact absurd hc (by rw [hline c (by simp [hbefore])]; exact Bool.false_ne_true)
  constructor
  · rintro hle ⟨before', line', hcut', -, hlt⟩
    obtain ⟨rfl, rfl⟩ := Prod.mk.inj (Option.some.inj (hcut.symm.trans hcut'))
    omega
  · intro hinto
    exact Nat.le_of_not_lt fun hlt => hinto ⟨before, line, hcut, hstarts, hlt⟩

/-- A comment stands in the front of its trivia if that reaches to its end. -/
theorem standsIn_iff {front back : String} (h : trivia = front ++ back)
    (hmem : comment ∈ comments trivia) :
    StandsIn front trivia comment ↔ comment.stop ≤ front.utf8ByteSize := by
  constructor
  · rintro ⟨before, after, hfront, hstart⟩
    obtain ⟨before', after', htext, hstart', hstop, -⟩ := comments_stand hmem
    rw [hstop, byteLength_append, ← hstart', hstart, ← byteLength_toList, hfront]
    simp only [byteLength_append]
    omega
  · subst h
    exact standsIn_append hmem

/-- A comment at the end of a line stays when its trivia is joined with that of the next token,
unless the trivia is cut inside it. -/
theorem IsJoined.standsIn_iff {more : String} (h : IsJoined gap own kept rest atEnd)
    (htrivia : trivia = gap ++ more) (hmem : comment ∈ comments trivia)
    (hstop : comment.stop ≤ gap.utf8ByteSize) (htrailing : IsTrailing trivia comment) :
    StandsIn kept trivia comment ↔ ¬ (cutsGap own atEnd ∧ CutsInto gap comment) := by
  obtain ⟨line, hgap⟩ := h.front
  rw [Erasure.standsIn_iff (by rw [htrivia, hgap, String.append_assoc]) hmem]
  have hkept : kept = keptGap gap own atEnd := by
    refine h.cut.resolve_left fun hnone => ?_
    obtain ⟨front, back, hgap, -⟩ := front_of_comment htrivia hmem hstop
    obtain ⟨d, body, hbody, hd⟩ := (comments_formed hmem).1
    have hopens : hasComments gap := by
      rw [hasComments, hgap, List.append_assoc, hbody]
      exact opensComment_of_opensHere ⟨d, body ++ back, rfl, hd⟩
    exact absurd hnone (comments_ne_nil hopens)
  cases hcuts : cutsGap own atEnd with
  | false =>
    rw [hkept, keptGap, hcuts]
    simpa using hstop
  | true =>
    rw [hkept, keptGap, hcuts, if_pos rfl]
    cases hsplit : splitAtLastNewline? gap with
    | none =>
      have hnot : ¬ CutsInto gap comment := by
        rintro ⟨before, line, hcut, -⟩
        cases hsplit.symm.trans hcut
      simpa [hnot] using hstop
    | some pieces => simpa using htrailing.stop_le_iff htrivia hmem hstop hsplit

/-- The comments of the next token stay. -/
theorem IsJoined.holdsOwn (h : IsJoined gap own kept rest atEnd) (hmem : comment ∈ comments own) :
    (comment.text own).toList <:+: rest.toList := by
  obtain ⟨lost, hown, hblank⟩ := h.ownStays
  obtain ⟨front, back, htext, -⟩ := comments_stand hmem
  obtain ⟨d, body, hbody, -⟩ := (comments_formed hmem).1
  generalize (comment.text own).toList = text at htext hbody ⊢
  rw [hown, String.toList_append, List.append_assoc] at htext
  -- White space is in front of a comment, for that starts with a slash.
  obtain ⟨middle, rfl, hrest⟩ | ⟨middle, hlost, hrest⟩ := List.append_eq_append_iff.1 htext
  · exact ⟨middle, back, by rw [hrest, List.append_assoc]⟩
  · cases middle with
    | nil => exact ⟨[], back, by simpa using hrest⟩
    | cons c middle =>
      obtain rfl : '/' = c := by
        rw [hbody] at hrest
        exact (List.cons.inj hrest).1
      exact absurd (hblank (hasComments_of_mem hmem) '/' (by simp [hlost])) (by decide)

end Erasure

end Untype
