-- The comments of trivia, by where they stand: what a removed token leaves
-- behind holds all of them.
import Mathlib.Data.List.TakeWhile
import Untype.Proofs.Trivia.Gaps

namespace Untype

open Text

namespace Text

variable {comment : Comment} {offset : Nat} {cs blanks : List Char} {mode : CommentMode}
  {text : String}
variable {front back body : List Char} {kind : CommentKind}

/-! ## Where comments stand -/

theorem commentsFrom_eq_nil (h : opensComment cs = false) :
    commentsFrom .outside offset cs = [] := by
  fun_induction opensComment cs generalizing offset with
  | case1 => rfl
  | case2 | case3 => cases h
  | case4 c rest hline hblock ih =>
    rw [commentsFrom]
    · exact ih h
    · exact hline
    · exact hblock

theorem hasComments_of_mem (h : comment ∈ comments text) : hasComments text := by
  cases hopens : hasComments text with
  | true => rfl
  | false =>
    rw [comments, commentsFrom_eq_nil hopens] at h
    cases h

/-- These characters hold no newline. -/
def IsLine (cs : List Char) : Prop := ∀ c ∈ cs, isNewline c = false

/-- Here a comment is opened. -/
def OpensHere (cs : List Char) : Prop := ∃ d rest, cs = '/' :: d :: rest ∧ (d = '/' ∨ d = '*')

theorem opensComment_of_opensHere (h : OpensHere back) :
    opensComment (front ++ back) := by
  induction front with
  | nil =>
    obtain ⟨d, rest, rfl, rfl | rfl⟩ := h <;> rfl
  | cons c front ih =>
    rw [List.cons_append]
    unfold opensComment
    split <;> simp_all

/-- The characters behind the opening of a block comment, up to the end of the first `*/` or of
the text. -/
def IsBlock (body back : List Char) : Prop :=
  (back = [] ∨ ['*', '/'] <:+ body) ∧
    ∀ front, front ++ ['*', '/'] <+: body ++ back → body <+: front ++ ['*', '/']

/-- The characters of a comment of this kind, and what follows it. -/
def CommentKind.Spans (body back : List Char) : CommentKind → Prop
  | .line => ['/', '/'] <+: body ∧ IsLine body ∧ ∀ c ∈ back.head?, isNewline c
  | .block => ∃ rest, body = '/' :: '*' :: rest ∧ IsBlock rest back

theorem CommentKind.Spans.opensHere (h : kind.Spans body back) : OpensHere body := by
  cases kind with
  | line =>
    obtain ⟨rest, rfl⟩ := h.1
    exact ⟨'/', rest, rfl, .inl rfl⟩
  | block =>
    obtain ⟨rest, rfl, -⟩ := h
    exact ⟨'*', rest, rfl, .inr rfl⟩

/-- A line comment goes on to the next newline. -/
theorem commentsFrom_inLine (start offset : Nat) (cs : List Char) :
    ∃ body back newline, cs = body ++ back ∧ IsLine body ∧ (∀ c ∈ back.head?, isNewline c) ∧
      commentsFrom (.inLine start) offset cs = ⟨start, offset + byteLength body, .line, newline⟩ ::
        commentsFrom .outside (offset + byteLength body) back := by
  induction cs generalizing offset with
  | nil => exact ⟨[], [], false, rfl, by simp [IsLine], by simp, rfl⟩
  | cons c rest ih =>
    rw [commentsFrom]
    split
    · rename_i hc
      refine ⟨[], c :: rest, true, rfl, by simp [IsLine], by simpa [isNewline] using hc, ?_⟩
      rcases (by simpa using hc : c = '\n' ∨ c = '\r') with rfl | rfl <;> rfl
    · rename_i hc
      obtain ⟨body, back, newline, rfl, hbody, hback, hread⟩ := ih (offset + c.utf8Size)
      refine ⟨c :: body, back, newline, rfl, ?_, hback, ?_⟩
      · exact List.forall_mem_cons.2 ⟨by simpa [isNewline] using hc, hbody⟩
      · rw [hread, byteLength_cons, Nat.add_assoc]

/-- A block comment goes on behind its end. -/
theorem commentsFrom_inBlock (start offset : Nat) (cs : List Char) :
    ∃ body back newline, cs = body ++ back ∧ IsBlock body back ∧
      commentsFrom (.inBlock start) offset cs = ⟨start, offset + byteLength body, .block,
        newline⟩ ::
        commentsFrom .outside (offset + byteLength body) back := by
  induction cs generalizing offset with
  | nil => exact ⟨[], [], false, rfl, ⟨.inl rfl, fun _ _ => List.nil_prefix⟩, rfl⟩
  | cons c rest ih =>
    by_cases hclose : ∃ rest', c = '*' ∧ rest = '/' :: rest'
    · obtain ⟨rest, rfl, rfl⟩ := hclose
      refine ⟨['*', '/'], rest, newlineBeforeCode rest, rfl, ⟨.inr List.suffix_rfl, ?_⟩, rfl⟩
      exact fun front hfront =>
        List.prefix_of_prefix_length_le (List.prefix_append _ rest) hfront (by simp)
    · obtain ⟨body, back, newline, rfl, ⟨hend, hfirst⟩, hread⟩ := ih (offset + c.utf8Size)
      refine ⟨c :: body, back, newline, rfl, ⟨?_, fun front hfront => ?_⟩, ?_⟩
      · exact hend.imp_right fun h => h.trans (List.suffix_cons c body)
      · cases front with
        | nil =>
          obtain ⟨rest', hrest⟩ := hfront
          obtain ⟨hc, hrest⟩ := List.cons.inj hrest
          exact absurd ⟨rest', hc.symm, hrest.symm⟩ hclose
        | cons d front =>
          obtain ⟨rfl, htail⟩ := List.cons_prefix_cons.1 hfront
          exact List.cons_prefix_cons.2 ⟨rfl, hfirst front htail⟩
      · rw [commentsFrom, hread, byteLength_cons, Nat.add_assoc]
        exact fun rest' hc hrest => hclose ⟨rest', hc, hrest⟩

/-- The comments that follow one another in these characters, the first of which is at `offset`:
each stands there from its opening on, and none is opened in front of it. -/
inductive Comment.Follow : Nat → List Char → List Comment → Prop where
  | nil {offset : Nat} {cs : List Char} : opensComment cs = false → Follow offset cs []
  | cons {offset : Nat} {front body back : List Char} {comment : Comment}
      {comments : List Comment} :
    (∀ before later, front = before ++ later → OpensHere (later ++ body ++ back) → later = []) →
    comment.start = offset + byteLength front → comment.stop = comment.start + byteLength body →
    comment.kind.Spans body back →
    Follow comment.stop back comments → Follow offset (front ++ body ++ back) (comment :: comments)

namespace Comment.Follow

variable {comments : List Comment}

/-- A character that opens no comment is passed over. -/
theorem skip {c : Char} (h : Comment.Follow (offset + c.utf8Size) cs comments)
    (hc : opensComment (c :: cs) = opensComment cs) (hhere : ¬ OpensHere (c :: cs)) :
    Comment.Follow offset (c :: cs) comments := by
  cases h with
  | nil hopens => exact .nil (hc.trans hopens)
  | @cons _ front body back comment comments hfront hstart hstop hspans h =>
    have hstart : comment.start = offset + byteLength (c :: front) := by
      rw [hstart, byteLength_cons, Nat.add_assoc]
    refine .cons (fun before later hsplit hopens => ?_) hstart hstop hspans h
    cases before with
    | nil =>
      obtain rfl : c :: front = later := hsplit
      exact absurd hopens hhere
    | cons d before => exact hfront before later (List.cons.inj hsplit).2 hopens

theorem opened {d : Char} (newline : Bool)
    (hd : d = '/' ∨ d = '*') (hspans : kind.Spans ('/' :: d :: body) back)
    (h : Comment.Follow (offset + 2 + byteLength body) back comments) :
    Comment.Follow offset ('/' :: d :: (body ++ back))
      (⟨offset, offset + 2 + byteLength body, kind, newline⟩ :: comments) := by
  have hsize : '/'.utf8Size + d.utf8Size = 2 := by rcases hd with rfl | rfl <;> rfl
  have hstart : offset = offset + byteLength [] := rfl
  have hstop := offset_two '/' d offset body hsize
  have hfront : ∀ before later, [] = before ++ later →
      OpensHere (later ++ '/' :: d :: body ++ back) → later = [] :=
    fun _ _ hsplit _ => (List.append_eq_nil_iff.1 hsplit.symm).2
  exact @cons offset [] _ back ⟨offset, _, kind, newline⟩ _ hfront hstart hstop hspans h

variable (h : Comment.Follow offset cs comments)

include h

/-- Each of the comments, where it stands. -/
theorem stands : ∀ comment ∈ comments,
    ∃ front body back, cs = front ++ body ++ back ∧ comment.start = offset + byteLength front ∧
      comment.stop = comment.start + byteLength body ∧ comment.kind.Spans body back := by
  induction h with
  | nil => nofun
  | @cons offset front body back comment comments _ hstart hstop hspans _ ih =>
    refine List.forall_mem_cons.2 ⟨⟨front, body, back, rfl, hstart, hstop, hspans⟩, ?_⟩
    intro later hlater
    obtain ⟨front', body', back', rfl, hstart', hform⟩ := ih later hlater
    refine ⟨front ++ body ++ front', body', back', by simp, ?_, hform⟩
    simp only [hstart', hstop, hstart, byteLength_append]
    omega

theorem ordered :
    (comments.Pairwise fun comment later => comment.stop ≤ later.start) := by
  induction h with
  | nil => exact .nil
  | cons _ _ _ _ h ih =>
    refine List.pairwise_cons.2 ⟨fun later hlater => ?_, ih⟩
    obtain ⟨front, -, -, -, hstart, -⟩ := h.stands later hlater
    exact hstart ▸ Nat.le_add_right _ _

/-- A line comment that ends with the characters is the last one. -/
theorem getLast?_of_stop (hmem : comment ∈ comments)
    (hline : comment.kind = .line) (hstop : comment.stop = offset + byteLength cs) :
    ∃ last, comments.getLast? = some last ∧ last.kind = .line := by
  induction h with
  | nil => cases hmem
  | @cons offset front body back first others _ hstart hend _ h ih =>
    simp only [byteLength_append] at hstop
    cases others with
    | nil =>
      obtain rfl := List.mem_singleton.1 hmem
      exact ⟨comment, rfl, hline⟩
    | cons second others =>
      rcases List.mem_cons.1 hmem with rfl | hmem
      · -- Another comment behind it would stand in no characters.
        obtain ⟨front', body', back', rfl, -, -, hspans⟩ := h.stands second List.mem_cons_self
        obtain ⟨d, rest, rfl, -⟩ := hspans.opensHere
        simp only [byteLength_append, byteLength_cons] at hstop
        have hsize := '/'.utf8Size_pos
        omega
      · exact ih hmem (by omega)

/-- What opens a comment stands in one. -/
theorem covers (hcs : cs = front ++ back) (hopens : OpensHere back) :
    ∃ comment ∈ comments, comment.start ≤ offset + byteLength front ∧
      offset + byteLength front < comment.stop := by
  induction h generalizing front with
  | nil hnone => cases hnone.symm.trans (hcs ▸ opensComment_of_opensHere hopens)
  | @cons offset ahead body rest comment comments hahead hstart hstop hspans _ ih =>
    by_cases hbehind : byteLength (ahead ++ body) ≤ byteLength front
    · obtain ⟨between, rfl, hrest⟩ := front_of_le hcs hbehind
      obtain ⟨other, hmem, hplace⟩ := ih hrest
      simp only [byteLength_append]
      exact ⟨other, List.mem_cons_of_mem _ hmem, by omega, by omega⟩
    · rw [byteLength_append] at hbehind
      refine ⟨comment, List.mem_cons_self, Nat.le_of_not_lt fun hbefore => ?_, by omega⟩
      rw [List.append_assoc] at hcs
      obtain ⟨later, rfl, rfl⟩ := front_of_le hcs.symm (by omega)
      obtain rfl := hahead front later rfl (by rwa [List.append_assoc])
      simp [hstart] at hbefore

end Comment.Follow

theorem commentsFrom_follow (offset : Nat) (cs : List Char) :
    Comment.Follow offset cs (commentsFrom .outside offset cs) := by
  induction hlength : cs.length using Nat.strongRecOn generalizing offset cs with
  | ind n ih =>
    subst hlength
    fun_cases opensComment cs with
    | case1 => exact .nil rfl
    | case2 rest =>
      obtain ⟨body, back, newline, rfl, hbody, hback, hread⟩ :=
        commentsFrom_inLine offset (offset + 2) rest
      rw [commentsFrom, hread]
      have hline : IsLine ('/' :: '/' :: body) := by simpa [IsLine, isNewline] using hbody
      exact .opened newline (.inl rfl) ⟨⟨body, rfl⟩, hline, hback⟩
        (ih _ (by simp; omega) _ back rfl)
    | case3 rest =>
      obtain ⟨body, back, newline, rfl, hbody, hread⟩ :=
        commentsFrom_inBlock offset (offset + 2) rest
      rw [commentsFrom, hread]
      exact .opened newline (.inr rfl) ⟨body, rfl, hbody⟩ (ih _ (by simp; omega) _ back rfl)
    | case4 c rest hline hblock =>
      have hopens : opensComment (c :: rest) = opensComment rest := by
        rw [opensComment]
        · exact hline
        · exact hblock
      have hhere : ¬ OpensHere (c :: rest) := by
        rintro ⟨d, rest', heq, hd⟩
        obtain ⟨rfl, rfl⟩ := List.cons.inj heq
        rcases hd with rfl | rfl
        · exact hline rest' rfl rfl
        · exact hblock rest' rfl rfl
      rw [commentsFrom]
      · exact (ih _ (by simp) _ rest rfl).skip hopens hhere
      · exact hline
      · exact hblock

theorem comments_stand (h : comment ∈ comments text) :
    ∃ front back, text.toList = front ++ (comment.text text).toList ++ back ∧
      comment.start = byteLength front ∧
      comment.stop = byteLength (front ++ (comment.text text).toList) ∧
      comment.kind.Spans (comment.text text).toList back := by
  obtain ⟨front, body, back, htext, hstart, hstop, hform⟩ :=
    (commentsFrom_follow 0 text.toList).stands comment h
  rw [Nat.zero_add] at hstart
  rw [hstart, ← byteLength_append] at hstop
  have hbody : comment.text text = .ofList body := by
    rw [Comment.text, hstop, hstart]
    exact slice_eq_ofList htext
  rw [hbody, String.toList_ofList]
  exact ⟨front, back, htext, hstart, hstop, hform⟩

theorem comments_formed (h : comment ∈ comments text) : OpensHere (comment.text text).toList ∧
    (comment.kind = .line → IsLine (comment.text text).toList) := by
  obtain ⟨_, _, -, -, -, hspans⟩ := comments_stand h
  refine ⟨hspans.opensHere, fun hkind => ?_⟩
  rw [hkind] at hspans
  exact hspans.2.1

theorem comments_ne_nil (h : hasComments text) : comments text ≠ [] := by
  have hfollow : Comment.Follow 0 text.toList (comments text) := commentsFrom_follow 0 text.toList
  unfold hasComments at h
  generalize text.toList = cs at h hfollow
  intro hnone
  rw [hnone] at hfollow
  cases hfollow with
  | nil hopens => cases hopens.symm.trans h

/-- The comments of a text are pieces of it, cut between characters, one behind the other and none
of them empty. A line comment starts with two slashes and goes on to a newline or to the end, a
block comment starts with slash and star and goes on to the end of the first `*/` behind that or to
the end of the text. Whatever opens a comment stands in one of them, and there is one if and only if
a comment is opened at all. -/
theorem comments_cover (text : String) :
    (∀ comment ∈ comments text, comment.start < comment.stop ∧ Boundary text comment.start ∧
      Boundary text comment.stop ∧ ∃ front back,
        text.toList = front ++ (comment.text text).toList ++ back ∧
        comment.start = byteLength front ∧
        comment.stop = byteLength (front ++ (comment.text text).toList) ∧
        comment.kind.Spans (comment.text text).toList back) ∧
    ((comments text).Pairwise fun comment later => comment.stop ≤ later.start) ∧
    (∀ front back, text.toList = front ++ back → OpensHere back →
      ∃ comment ∈ comments text, comment.start ≤ byteLength front ∧
        byteLength front < comment.stop) ∧
    (comments text ≠ [] ↔ hasComments text) := by
  have hfollow : Comment.Follow 0 text.toList (comments text) := commentsFrom_follow 0 text.toList
  refine ⟨fun comment hcomment => ?_, hfollow.ordered, fun front back htext hopens => ?_, ?_⟩
  · obtain ⟨front, back, htext, hstart, hstop, hspans⟩ := comments_stand hcomment
    refine ⟨?_, ?_, ?_, front, back, htext, hstart, hstop, hspans⟩
    · obtain ⟨d, rest, hbody, -⟩ := hspans.opensHere
      rw [hstop, hstart, hbody, byteLength_append, byteLength_cons]
      exact Nat.lt_add_of_pos_right (Nat.lt_of_lt_of_le '/'.utf8Size_pos (Nat.le_add_right _ _))
    · exact boundary_iff.2 ⟨front, _, htext.trans (List.append_assoc ..), hstart.symm⟩
    · exact boundary_iff.2 ⟨_, back, htext, hstop.symm⟩
  · simpa using hfollow.covers htext hopens
  · refine ⟨fun hsome => ?_, comments_ne_nil⟩
    obtain ⟨comment, hcomment⟩ := List.exists_mem_of_ne_nil _ hsome
    exact hasComments_of_mem hcomment

/-! ## White space behind comments -/

/-- Without the white space behind the characters, the comment is found as well, and it is the
same or the last one, which ends with the characters then. -/
def Comment.FoundWithout (comment : Comment) (comments : List Comment) (stop : Nat) : Prop :=
  (∃ other ∈ comments, other.start = comment.start ∧ other.stop = comment.stop ∧
    other.kind = comment.kind) ∨
  ∃ other, comments.getLast? = some other ∧ other.start = comment.start ∧
    other.kind = comment.kind ∧ other.stop = stop ∧ stop ≤ comment.stop

theorem Comment.FoundWithout.cons {comments : List Comment} {stop : Nat} (other : Comment)
    (h : comment.FoundWithout comments stop) : comment.FoundWithout (other :: comments) stop := by
  rcases h with ⟨same, hmem, hsame⟩ | ⟨last, hlast, hsame⟩
  · exact .inl ⟨same, List.mem_cons_of_mem _ hmem, hsame⟩
  · refine .inr ⟨last, ?_, hsame⟩
    rw [List.getLast?_cons, hlast]
    rfl

section Blanks

variable (hblanks : ∀ c ∈ blanks, isWhiteSpace c)

include hblanks

theorem inLine_blanks (start offset : Nat) :
    ∀ comment ∈ commentsFrom (.inLine start) offset blanks,
      comment.start = start ∧ comment.kind = .line ∧ offset ≤ comment.stop := by
  obtain ⟨body, back, newline, rfl, -, -, hread⟩ := commentsFrom_inLine start offset blanks
  rw [hread, commentsFrom_eq_nil (opensComment_of_whiteSpace (List.forall_mem_append.1 hblanks).2)]
  simp

theorem inBlock_blanks (start offset : Nat) :
    ∀ comment ∈ commentsFrom (.inBlock start) offset blanks,
      comment.start = start ∧ comment.kind = .block ∧ offset ≤ comment.stop := by
  obtain ⟨body, back, newline, rfl, -, hread⟩ := commentsFrom_inBlock start offset blanks
  rw [hread, commentsFrom_eq_nil (opensComment_of_whiteSpace (List.forall_mem_append.1 hblanks).2)]
  simp

/-- Each comment is found without white space behind the characters, too. -/
theorem commentsFrom_append (mode : CommentMode) (offset : Nat) (cs : List Char) :
    ∀ comment ∈ commentsFrom mode offset (cs ++ blanks),
      comment.FoundWithout (commentsFrom mode offset cs) (offset + byteLength cs) := by
  -- A sign that is no white space belongs to the characters.
  have hfirst : ∀ {d : Char} {rest rest' : List Char}, isWhiteSpace d = false →
      rest ++ blanks = d :: rest' → ∃ tail, rest = d :: tail := by
    intro d rest rest' hd hrest
    cases rest with
    | nil => cases hd.symm.trans (hblanks d (List.mem_of_mem_head? (congrArg List.head? hrest)))
    | cons e rest => exact ⟨rest, by rw [(List.cons.inj hrest).1]⟩
  have houtside : ∀ offset, commentsFrom .outside offset blanks = [] := fun offset =>
    commentsFrom_eq_nil (opensComment_of_whiteSpace hblanks)
  fun_induction commentsFrom mode offset cs
  all_goals intro comment hcomment
  case case1 offset =>
    rw [List.nil_append, houtside] at hcomment
    cases hcomment
  case case2 offset rest ih =>
    have hread := ih comment hcomment
    rwa [← offset_two '/' '/' offset rest rfl]
  case case3 offset rest ih =>
    have hread := ih comment hcomment
    rwa [← offset_two '/' '*' offset rest rfl]
  case case4 offset c rest hline hblock ih =>
    rw [byteLength_cons, ← Nat.add_assoc]
    refine ih comment ?_
    rwa [List.cons_append, commentsFrom] at hcomment
    · exact fun rest' hc hrest => (hfirst (by decide) hrest).elim fun tail => hline tail hc
    · exact fun rest' hc hrest => (hfirst (by decide) hrest).elim fun tail => hblock tail hc
  case case5 offset start =>
    obtain ⟨hstart, hkind, hstop⟩ := inLine_blanks hblanks start offset comment hcomment
    exact .inr ⟨_, rfl, hstart.symm, hkind.symm, rfl, hstop⟩
  case case6 offset start c rest hc ih =>
    have hsize : byteLength (c :: rest) = 1 + byteLength rest := by
      rcases (by simpa using hc : c = '\n' ∨ c = '\r') with rfl | rfl <;> rfl
    rw [List.cons_append, commentsFrom, if_pos hc] at hcomment
    rcases List.mem_cons.1 hcomment with rfl | hcomment
    · exact .inl ⟨_, List.mem_cons_self, rfl, rfl, rfl⟩
    · rw [hsize, ← Nat.add_assoc]
      exact (ih comment hcomment).cons _
  case case7 offset start c rest hc ih =>
    rw [List.cons_append, commentsFrom, if_neg hc] at hcomment
    rw [byteLength_cons, ← Nat.add_assoc]
    exact ih comment hcomment
  case case8 offset start =>
    obtain ⟨hstart, hkind, hstop⟩ := inBlock_blanks hblanks start offset comment hcomment
    exact .inr ⟨_, rfl, hstart.symm, hkind.symm, rfl, hstop⟩
  case case9 offset start rest ih =>
    rw [← offset_two '*' '/' offset rest rfl]
    rcases List.mem_cons.1 hcomment with rfl | hcomment
    · exact .inl ⟨_, List.mem_cons_self, rfl, rfl, rfl⟩
    · exact (ih comment hcomment).cons _
  case case10 offset start c rest hclose ih =>
    rw [byteLength_cons, ← Nat.add_assoc]
    refine ih comment ?_
    rwa [List.cons_append, commentsFrom] at hcomment
    exact fun rest' hc hrest => (hfirst (by decide) hrest).elim fun tail => hclose tail hc

end Blanks

end Text

namespace Erasure

variable {trivia text before after kept gap own rest : String} {comment : Comment} {atEnd : Bool}

/-! ## Comments that stay when syntax inside a line goes -/

/-- The comment of the trivia stands in the piece at the same place, up to white space at the end
of the trivia. A line comment is followed by a newline there. -/
def StaysIn (piece trivia : String) (comment : Comment) : Prop :=
  ∃ front body blanks rest back, trivia.toList = front ++ body ++ blanks ++ rest ∧
    comment.start = byteLength front ∧ (comment.text trivia).toList = body ++ blanks ∧
    piece.toList = front ++ body ++ back ∧
    (blanks ≠ [] → ∀ c ∈ blanks ++ rest, isWhiteSpace c) ∧
    (comment.kind = .line → ∃ c ∈ back.head?, isNewline c)

/-- The piece is the trivia without the white space at its end, and has all its comments. -/
structure HoldsComments (piece trivia : String) : Prop where
  text : piece = "" ∨ ∃ tail, (tail = "" ∨ tail = "\n") ∧ piece = trimEnd trivia ++ tail
  stay : ∀ comment ∈ comments trivia, StaysIn piece trivia comment

/-- What stays of trivia with comments is the trivia without the white space at its end, and a
newline if a line comment is the last one. -/
theorem insideComments_eq (h : hasComments trivia) :
    ∃ tail, (tail = "" ∨ tail = "\n") ∧ insideComments trivia = trimEnd trivia ++ tail ∧
      ((∃ last, (comments (trimEnd trivia)).getLast? = some last ∧ last.kind = .line) →
        tail = "\n") := by
  unfold insideComments
  rw [if_pos h]
  dsimp only
  split
  · rename_i comment hlast
    split
    · exact ⟨"\n", .inr rfl, rfl, fun _ => rfl⟩
    · rename_i hkind
      refine ⟨"", .inl rfl, String.append_empty.symm, ?_⟩
      rintro ⟨last, hlast', hline⟩
      cases hlast.symm.trans hlast'
      simp [hline] at hkind
  · rename_i hlast
    refine ⟨"", .inl rfl, String.append_empty.symm, ?_⟩
    rintro ⟨last, hlast', -⟩
    cases hlast.symm.trans hlast'

theorem insideComments_staysIn (h : comment ∈ comments trivia) :
    StaysIn (insideComments trivia) trivia comment := by
  obtain ⟨tail, -, htail, hnewline⟩ := insideComments_eq (hasComments_of_mem h)
  rw [htail]
  obtain ⟨blanks, hsplit, hblanks⟩ := exists_trimEnd trivia
  have hfound := commentsFrom_append hblanks .outside 0 (trimEnd trivia).toList comment
    (hsplit ▸ h)
  rw [Nat.zero_add] at hfound
  rcases hfound with ⟨other, hother, hstart, hstop, hkind⟩ | ⟨other, hlast, hstart, hkind,
    hstop, hle⟩
  · obtain ⟨front, back, hpiece, hfront, hbody, hspans⟩ := comments_stand hother
    generalize (other.text (trimEnd trivia)).toList = body at hpiece hbody
    rw [hpiece, List.append_assoc _ back] at hsplit
    have htext : comment.text trivia = .ofList body := by
      rw [Comment.text, ← hstart, ← hstop, hfront, hbody]
      exact slice_eq_ofList hsplit
    refine ⟨front, body, [], back ++ blanks, back ++ tail.toList, by simp [hsplit],
      hstart.symm.trans hfront, by simp [htext], by simp [hpiece], by simp, fun hcomment => ?_⟩
    cases back with
    | cons c back =>
      rw [hkind, hcomment] at hspans
      exact ⟨c, rfl, hspans.2.2 c rfl⟩
    | nil =>
      -- The comment ends with the piece, which gets its newline for that.
      have hend : other.stop = 0 + byteLength (trimEnd trivia).toList := by
        rw [hbody, hpiece, List.append_nil, Nat.zero_add]
      rw [hnewline ((commentsFrom_follow 0 _).getLast?_of_stop hother (hkind.trans hcomment) hend)]
      exact ⟨'\n', rfl, rfl⟩
  · obtain ⟨front, back, hpiece, hfront, hbody, -⟩ := comments_stand (List.mem_of_getLast? hlast)
    generalize (other.text (trimEnd trivia)).toList = body at hpiece hbody
    obtain rfl : back = [] := by
      rw [hpiece] at hstop
      refine eq_nil_of_byteLength ?_
      simp only [byteLength_append] at hstop hbody
      omega
    rw [List.append_nil] at hpiece
    obtain ⟨front', rest, htrivia, hfront', hbody', -⟩ := comments_stand h
    rw [hpiece, List.append_assoc] at hsplit
    rw [List.append_assoc, hsplit] at htrivia
    obtain ⟨middle, rfl, hrest⟩ := front_of_le htrivia (by omega)
    obtain rfl : middle = [] := by
      refine eq_nil_of_byteLength ?_
      rw [byteLength_append] at hfront'
      omega
    rw [List.append_nil] at hfront' hbody'
    rw [List.nil_append] at hrest
    obtain ⟨more, htext, rfl⟩ := front_of_le hrest (by simp only [byteLength_append] at *; omega)
    refine ⟨front, body, more, rest, tail.toList, by simp [hsplit], hfront', htext,
      by rw [String.toList_append, hpiece], fun _ => hblanks, fun hcomment => ?_⟩
    rw [hnewline ⟨other, hlast, hkind.trans hcomment⟩]
    exact ⟨'\n', rfl, rfl⟩

theorem insideComments_holdsComments (trivia : String) :
    HoldsComments (insideComments trivia) trivia := by
  refine ⟨?_, fun comment hcomment => insideComments_staysIn hcomment⟩
  cases hopens : hasComments trivia with
  | true =>
    obtain ⟨tail, htail, htext, -⟩ := insideComments_eq hopens
    exact .inr ⟨tail, htail, htext⟩
  | false => exact .inl (by simp [insideComments, hopens])

/-! ## Comments in front of removed pieces -/

/-- The comment of the trivia stands in the piece, and at the same place. -/
def StandsIn (piece trivia : String) (comment : Comment) : Prop :=
  ∃ front back, piece.toList = front ++ (comment.text trivia).toList ++ back ∧
    comment.start = byteLength front

/-- Where the trivia of a removed piece is cut: the token after it, with the trivia `own`, has a
newline and no comment. -/
def cutsGap (own : String) (atEnd : Bool) : Bool :=
  !atEnd && !hasComments own && own.toList.any isNewline

/-- What stays of the trivia `gap` of a removed piece if it has comments. It is cut behind its last
newline. -/
def keptGap (gap own : String) (atEnd : Bool) : String :=
  if cutsGap own atEnd then ((splitAtLastNewline? gap).map Prod.fst).getD gap else gap

/-- The trivia `gap` of a removed piece and the trivia `own` of the token after it are joined:
`kept` and `rest` stay of them. -/
structure IsJoined (gap own kept rest : String) (atEnd : Bool) : Prop where
  /-- No comment of the token is lost. -/
  ownStays : ∃ lost, own = lost ++ rest ∧
    (hasComments own → ∀ c ∈ lost.toList, isWhiteSpace c)
  /-- The comments of the piece stay up to the place where its trivia is cut. -/
  stand : ∀ comment ∈ comments gap, comment.stop ≤ kept.utf8ByteSize → StandsIn kept gap comment
  /-- Of the piece nothing else stays. -/
  front : ∃ line, gap = kept ++ line
  cut : comments gap = [] ∨ kept = keptGap gap own atEnd

theorem exists_trimStart (text : String) :
    ∃ blanks, text = blanks ++ trimStart text ∧ ∀ c ∈ blanks.toList, isWhiteSpace c := by
  refine ⟨.ofList (text.toList.takeWhile isWhiteSpace), ?_, ?_⟩
  · rw [trimStart, ← String.ofList_append, List.takeWhile_append_dropWhile, String.ofList_toList]
  · rw [String.toList_ofList]
    exact fun c hc => List.all_eq_true.1 List.all_takeWhile c hc

theorem splitAtLastNewline?_append (h : splitAtLastNewline? text = some (before, after)) :
    text = before ++ after := by
  rw [← String.toList_inj, String.toList_append]
  exact (splitAtLastNewline?_eq_some h).1

theorem any_isNewline_of_split (h : splitAtLastNewline? text = some (before, after)) :
    text.toList.any isNewline := by
  obtain ⟨htext, front, c, hbefore, hc⟩ := splitAtLastNewline?_eq_some h
  rw [htext, hbefore]
  simp [hc]

theorem any_isNewline_eq_false (h : splitAtLastNewline? text = none) :
    text.toList.any isNewline = false := by
  unfold splitAtLastNewline? at h
  dsimp only at h
  split at h
  · rename_i hnone
    simpa [List.dropWhile_eq_nil_iff] using hnone
  · cases h

theorem standsIn_append {line : String} (h : comment ∈ comments (kept ++ line))
    (hstop : comment.stop ≤ kept.utf8ByteSize) : StandsIn kept (kept ++ line) comment := by
  obtain ⟨front, back, htext, hstart, hend, -⟩ := comments_stand h
  rw [String.toList_append] at htext
  rw [hend, ← byteLength_toList] at hstop
  obtain ⟨middle, hkept, -⟩ := front_of_le htext.symm hstop
  exact ⟨front, middle, hkept, hstart⟩

/-- Of the trivia `own` of a token `rest` stays, with all its comments. -/
abbrev OwnStays (own rest : String) : Prop :=
  ∃ lost, own = lost ++ rest ∧ (hasComments own → ∀ c ∈ lost.toList, isWhiteSpace c)

theorem IsJoined.of_bare (hown : OwnStays own rest) (hgap : hasComments gap = false) :
    IsJoined gap own "" rest atEnd := by
  have hnone : comments gap = [] := commentsFrom_eq_nil hgap
  exact ⟨hown, by simp [hnone], ⟨gap, String.empty_append.symm⟩, .inl hnone⟩

theorem IsJoined.whole (hown : OwnStays own rest) (hkept : keptGap gap own atEnd = gap) :
    IsJoined gap own gap rest atEnd := by
  refine ⟨hown, fun comment hcomment hstop => ?_, ⟨"", String.append_empty.symm⟩, .inr hkept.symm⟩
  have hstands :=
    standsIn_append (by rwa [String.append_empty] : comment ∈ comments (gap ++ "")) hstop
  rwa [String.append_empty] at hstands

theorem join_isJoined (gap own : String) (first : Bool) :
    ∃ kept rest, join gap own first = kept ++ rest ∧ IsJoined gap own kept rest false := by
  obtain ⟨blanks, hblanks, hwhite⟩ := exists_trimStart own
  have htrimmed : OwnStays own (trimStart own) := ⟨blanks, hblanks, fun _ => hwhite⟩
  have hall : OwnStays own own := ⟨"", String.empty_append.symm, by simp⟩
  unfold join
  split
  · rename_i hnone
    have hgap : hasComments gap = false := by simpa using (Bool.and_eq_true_iff.1 hnone).2
    exact ⟨"", own, String.empty_append.symm, .of_bare hall hgap⟩
  split
  · rename_i hempty
    obtain rfl := String.isEmpty_iff.1 hempty
    exact ⟨"", trimStart own, String.empty_append.symm, .of_bare htrimmed rfl⟩
  split
  · rename_i hcomments
    exact ⟨gap, trimStart own, rfl, .whole htrimmed (by simp [keptGap, cutsGap, hcomments])⟩
  rename_i hcomments
  have hnone : hasComments own = false := by simpa using hcomments
  have hgone : OwnStays own "" := ⟨own, String.append_empty.symm, by simp [hnone]⟩
  split
  · rename_i before line _ after hbefore hafter
    refine ⟨before, after, rfl, ⟨_, splitAtLastNewline?_append hafter, by simp [hnone]⟩, ?_,
      ⟨line, splitAtLastNewline?_append hbefore⟩, .inr ?_⟩
    · obtain rfl := splitAtLastNewline?_append hbefore
      exact fun comment hcomment hstop => standsIn_append hcomment hstop
    · simp [keptGap, cutsGap, hnone, any_isNewline_of_split hafter, hbefore]
  · rename_i hbefore _
    split
    · exact ⟨gap, "", String.append_empty.symm, .whole hgone (by simp [keptGap, hbefore])⟩
    · rename_i hgap
      exact ⟨"", own, String.empty_append.symm, .of_bare hall (by simpa using hgap)⟩
  · rename_i hafter
    have hnewline : own.toList.any isNewline = false := any_isNewline_eq_false hafter
    exact ⟨gap, "", String.append_empty.symm, .whole hgone (by simp [keptGap, cutsGap, hnewline])⟩

theorem joinAtEnd_isJoined (gap own : String) :
    ∃ kept rest, joinAtEnd gap own = kept ++ rest ∧ IsJoined gap own kept rest true := by
  unfold joinAtEnd
  split
  · obtain ⟨blanks, hblanks, hwhite⟩ := exists_trimStart own
    exact ⟨gap, trimStart own, rfl, .whole ⟨blanks, hblanks, fun _ => hwhite⟩ rfl⟩
  · rename_i hgap
    exact ⟨"", own, String.empty_append.symm,
      .of_bare ⟨"", String.empty_append.symm, by simp⟩ (by simpa using hgap)⟩

end Erasure

end Untype
