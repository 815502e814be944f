-- Trivia read one character at a time. Unlike the scanner, such a reader
-- never looks ahead, so that pieces of trivia can be read one after another.
import Untype.Proofs.Scanning
import Untype.Text.Comments
import Untype.Text.Indent

namespace Untype

variable {rest : List Char} {trivia : String}

namespace Text

/-! ## Phases -/

/-- Where a reader of trivia stands. -/
inductive Phase where
  | between
  /-- After a slash, which has to open a comment. -/
  | slash
  | line
  | block
  /-- In a block comment after a star, which may close it. -/
  | star
deriving DecidableEq, Repr

namespace Phase

/-- The phase after one more character. There is none after a character that is no trivia. -/
def next : Phase → Char → Option Phase
  | between, c =>
    if c = '/' then some slash else if isBlankOrLineBreak c then some between else none
  | slash, c => if c = '/' then some line else if c = '*' then some block else none
  | line, c => if isLineBreak c then some between else some line
  | block, c => if c = '*' then some star else some block
  | star, c => if c = '/' then some between else if c = '*' then some star else some block

/-- The phase after some characters. -/
def run : Phase → List Char → Option Phase
  | phase, [] => some phase
  | phase, c :: cs => (phase.next c).bind fun later => later.run cs

variable {phase later : Phase} {c : Char} {cs front back : List Char}

@[simp]
theorem run_nil : phase.run [] = some phase := rfl

theorem run_cons : phase.run (c :: cs) = (phase.next c).bind fun later => later.run cs := rfl

theorem run_append :
    phase.run (front ++ back) = (phase.run front).bind fun later => later.run back := by
  induction front generalizing phase with
  | nil => rfl
  | cons c front ih => cases h : phase.next c <;> simp [run_cons, h, ih]

theorem run_append_eq_some :
    phase.run (front ++ back) = some later ↔
      ∃ middle, phase.run front = some middle ∧ middle.run back = some later := by
  rw [run_append, Option.bind_eq_some_iff]

theorem not_blank_slash (h : isBlankOrLineBreak c) : c ≠ '/' := by
  rintro rfl
  cases h

theorem next_between (h : isBlankOrLineBreak c) : between.next c = some between := by
  simp [next, not_blank_slash h, h]

theorem run_between_cons (h : isBlankOrLineBreak c) : between.run (c :: cs) = between.run cs := by
  rw [run_cons, next_between h]
  rfl

theorem run_line_cons (c : Char) (cs : List Char) :
    line.run (c :: cs) = if isLineBreak c then between.run cs else line.run cs := by
  rw [run_cons, next]
  split <;> rfl

theorem run_block_cons (h : c = '*' → cs.head? ≠ some '/') :
    block.run (c :: cs) = block.run cs ∨ c = '*' ∧ cs = [] := by
  by_cases hc : c = '*'
  · cases cs with
    | nil => exact .inr ⟨hc, rfl⟩
    | cons d cs =>
      have hd : d ≠ '/' := by simpa using h hc
      refine .inl ?_
      simp [run_cons, next, hc, hd]
  · exact .inl (by simp [run_cons, next, hc])

/-- What opens no comment is white space. -/
theorem blank_of_run (hrun : between.run (c :: cs) = some phase) (hphase : phase ≠ slash)
    (hline : c = '/' → cs.head? ≠ some '/') (hblock : c = '/' → cs.head? ≠ some '*') :
    isBlankOrLineBreak c := by
  by_cases hc : c = '/'
  · cases cs with
    | nil =>
      subst hc
      cases hrun
      exact absurd rfl hphase
    | cons d cs =>
      have hd : d ≠ '/' := by simpa using hline hc
      have hd' : d ≠ '*' := by simpa using hblock hc
      simp [run_cons, next, hc, hd, hd'] at hrun
  · cases hblank : isBlankOrLineBreak c with
    | true => rfl
    | false => simp [run_cons, next, hc, hblank] at hrun

end Phase

/-- Trivia that a token can follow: no comment is open at its end. -/
def IsClosed (cs : List Char) : Prop := Phase.between.run cs = some .between

/-- Trivia that the end of the text can follow, too. -/
def IsWhole (cs : List Char) : Prop := ∃ phase, Phase.between.run cs = some phase ∧ phase ≠ .slash

namespace IsClosed

variable {cs front back : List Char}

theorem nil : IsClosed [] := rfl

theorem run_append (h : IsClosed front) :
    Phase.between.run (front ++ back) = Phase.between.run back := by
  rw [Phase.run_append, h]
  rfl

theorem append (hfront : IsClosed front) (hback : IsClosed back) : IsClosed (front ++ back) :=
  hfront.run_append.trans hback

theorem isWhole (h : IsClosed cs) : IsWhole cs := ⟨.between, h, nofun⟩

end IsClosed

end Text

open Text

/-! ## The scanner -/

/-- The phase of a reader that stands where the scanner does. -/
def TriviaMode.phase : TriviaMode → Phase
  | .between => .between
  | .lineComment => .line
  | .blockComment _ => .block

theorem head?_ne_of_not_cons {c d e : Char} (h : ∀ rest', c = d → rest = e :: rest' → False)
    (hc : c = d) : rest.head? ≠ some e := by
  intro hhead
  obtain ⟨rest', rfl⟩ := List.head?_eq_some_iff.1 hhead
  exact h rest' hc rfl

/-- The phase lies in a block comment. -/
def Text.Phase.inBlock : Phase → Bool
  | .block | .star => true
  | _ => false

/-- Of these characters, those before `stop` are trivia for a reader in this phase, and closed
unless nothing is left. They are told about only where a block comment is open at their end. -/
def Text.Phase.Passes (phase : Phase) (cs stop : List Char) (findings : List Finding) : Prop :=
  ∃ front later, cs = front ++ stop ∧ phase.run front = some later ∧ later ≠ .slash ∧
    (stop ≠ [] → later = .between) ∧ (findings = [] ↔ later.inBlock = false)

namespace Text.Phase

variable {phase later : Phase} {c : Char} {cs stop : List Char} {findings : List Finding}

theorem Passes.stay (h : stop ≠ [] → phase = .between) (hslash : phase ≠ .slash)
    (hfindings : findings = [] ↔ phase.inBlock = false) : phase.Passes stop stop findings :=
  ⟨[], phase, rfl, rfl, hslash, h, hfindings⟩

theorem Passes.cons (hnext : phase.next c = some later) (h : later.Passes cs stop findings) :
    phase.Passes (c :: cs) stop findings := by
  obtain ⟨front, last, rfl, hrun, hlast⟩ := h
  exact ⟨c :: front, last, rfl, by rw [run_cons, hnext]; exact hrun, hlast⟩

theorem Passes.block_cons (hclose : c = '*' → cs.head? ≠ some '/')
    (h : block.Passes cs stop findings) : block.Passes (c :: cs) stop findings := by
  by_cases hc : c = '*'
  · obtain ⟨front, last, rfl, hrun, hlast, hend, hfindings⟩ := h
    cases front with
    | nil =>
      cases hrun
      cases stop with
      | nil => exact ⟨[c], star, rfl, by rw [hc]; rfl, nofun, absurd rfl, hfindings⟩
      | cons d stop => cases hend (List.cons_ne_nil d stop)
    | cons d front =>
      have hd : d ≠ '/' := by simpa using hclose hc
      refine ⟨c :: d :: front, last, rfl, ?_, hlast, hend, hfindings⟩
      rw [← hrun]
      simp [run_cons, next, hc, hd]
  · exact h.cons (by simp [next, hc])

end Text.Phase

/-- What the scanner passes over is trivia, and closed unless the text ends there. The first line
of a text may be of a kind of its own, which is left out here. -/
theorem triviaEnd_passes (mode : TriviaMode) (flags : TokenFlags) (offset : Nat) (cs : List Char)
    (hbang : offset = 0 → cs.take 2 ≠ ['#', '!']) :
    mode.phase.Passes cs (triviaEnd mode flags offset cs).stop.rest
      (triviaEnd mode flags offset cs).findings := by
  fun_induction triviaEnd mode flags offset cs with
  | case1 flags offset start =>
    exact .stay (absurd rfl) (by simp [TriviaMode.phase])
      (by simp [TriviaMode.phase, Phase.inBlock])
  | case2 flags offset start rest ih => exact .cons rfl (.cons rfl (ih (by omega)))
  | case3 flags offset start c rest hclose flags' ih =>
    have := c.utf8Size_pos
    exact .block_cons (head?_ne_of_not_cons hclose) (ih (by omega))
  | case4 flags offset c rest hbreak ih | case5 flags offset c rest hbreak ih =>
    have := c.utf8Size_pos
    exact .cons (by simp [TriviaMode.phase, Phase.next, hbreak]) (ih (by omega))
  | case6 flags offset rest ih | case7 flags offset rest flags' ih =>
    exact .cons rfl (.cons rfl (ih (by omega)))
  | case8 flags offset c rest hline hblock hbreak ih =>
    have := c.utf8Size_pos
    exact .cons (Phase.next_between (by simp [isBlankOrLineBreak, hbreak])) (ih (by omega))
  | case9 flags offset c rest hline hblock hbreak hblank ih =>
    have := c.utf8Size_pos
    exact .cons (Phase.next_between (by simp [isBlankOrLineBreak, hblank])) (ih (by omega))
  | case10 flags offset c rest hline hblock hbreak hblank hhash ih =>
    obtain ⟨⟨rfl, rfl⟩, hmark⟩ : (c = '#' ∧ offset = 0) ∧ rest.head? = some '!' := by
      simpa using hhash
    obtain ⟨rest, rfl⟩ := List.head?_eq_some_iff.1 hmark
    exact absurd rfl (hbang rfl)
  | case11 flags offset c rest hline hblock hbreak hblank hhash =>
    exact .stay (fun _ => rfl) (by simp [TriviaMode.phase]) ⟨fun _ => rfl, fun _ => rfl⟩
  | case12 mode flags offset hmode =>
    cases mode with
    | between | lineComment =>
      exact .stay (absurd rfl) (by simp [TriviaMode.phase]) ⟨fun _ => rfl, fun _ => rfl⟩
    | blockComment start => exact absurd rfl (hmode start)

/-- Of trivia the scanner leaves nothing but what cannot go on with it, and it tells about it only
where a block comment is open at its end. -/
theorem triviaEnd_of_run {phase : Phase} {front : List Char} (flags : TokenFlags) (offset : Nat)
    (rest : List Char) (hrun : Phase.between.run front = some phase) (hslash : phase ≠ .slash)
    (hrest : ∀ c ∈ rest.head?, phase.next c = none ∧ c ≠ '#') :
    (triviaEnd .between flags offset (front ++ rest)).stop.rest = rest ∧
      ((triviaEnd .between flags offset (front ++ rest)).findings = [] ↔
        phase.inBlock = false) := by
  have hbang : (front ++ rest).take 2 ≠ ['#', '!'] := by
    intro hbang
    rcases front with _ | ⟨c, front⟩
    · rcases rest with _ | ⟨c, rest⟩
      · cases hbang
      · exact (hrest c rfl).2 (List.cons.inj hbang).1
    · obtain ⟨rfl, -⟩ := List.cons.inj hbang
      cases hrun
  obtain ⟨passed, later, hsplit, hpassed, -, hclosed, hfindings⟩ :=
    triviaEnd_passes .between flags offset (front ++ rest) fun _ => hbang
  have hsolid := isSolid_triviaEnd .between flags offset (front ++ rest)
  generalize (triviaEnd .between flags offset (front ++ rest)).stop.rest = stop at *
  rcases List.append_eq_append_iff.1 hsplit with ⟨more, rfl, rfl⟩ | ⟨more, rfl, rfl⟩
  · obtain ⟨middle, hmiddle, hmore⟩ := Phase.run_append_eq_some.1 hpassed
    obtain rfl := Option.some.inj (hrun.symm.trans hmiddle)
    cases more with
    | nil =>
      cases hmore
      exact ⟨rfl, hfindings⟩
    | cons c more => simp [Phase.run_cons, (hrest c rfl).1] at hmore
  · obtain ⟨middle, hmiddle, hmore⟩ := Phase.run_append_eq_some.1 hrun
    obtain rfl := Option.some.inj (hpassed.symm.trans hmiddle)
    cases more with
    | nil =>
      cases hmore
      exact ⟨rfl, hfindings⟩
    | cons c more =>
      obtain rfl := hclosed (List.cons_ne_nil _ _)
      have hhead : ∀ {d}, more.head? = some d → (more ++ rest).head? = some d := by
        intro d hd
        rw [List.head?_append, hd]
        rfl
      have hblank := Phase.blank_of_run hmore hslash
        (fun hc hd => (hsolid.2 hc _ (hhead hd)).1 rfl) fun hc hd =>
          (hsolid.2 hc _ (hhead hd)).2 rfl
      cases hsolid.1.symm.trans hblank

theorem offset_two (c d : Char) (offset : Nat) (cs : List Char) (h : c.utf8Size + d.utf8Size = 2) :
    offset + 2 + byteLength cs = offset + byteLength (c :: d :: cs) := by
  rw [byteLength_cons, byteLength_cons]
  omega

/-- Whole trivia, scanned alone, is skipped up to the end of the text, and an open block comment
is all that is told about it. -/
theorem Scanner.scan_trivia {phase : Phase} (hrun : Phase.between.run trivia.toList = some phase)
    (hslash : phase ≠ .slash) :
    (Scanner.ofText trivia).scan.kind = .endOfFile ∧ (Scanner.ofText trivia).scan.trivia = trivia ∧
      ((Scanner.ofText trivia).scan.findings = [] ↔ phase.inBlock = false) := by
  obtain ⟨hstop, hfindings⟩ := triviaEnd_of_run {} 0 [] hrun hslash nofun
  rw [List.append_nil] at hstop hfindings
  obtain ⟨front, hfront, hoffset⟩ := leads_triviaEnd .between {} 0 trivia.toList
  dsimp only [Scanner.scan, Scanner.ofText, Scanner.trivia, Cursor.ofText] at hfront hoffset ⊢
  generalize triviaEnd .between {} 0 trivia.toList = found at hstop hfindings hfront hoffset ⊢
  have htoken : readToken found.flags found.stop = ⟨found.stop, .endOfFile, found.flags, []⟩ := by
    rw [readToken, hstop]
  rw [htoken]
  refine ⟨rfl, ?_, by simpa using hfindings⟩
  refine (Cursor.textTo_of_append hfront hoffset).trans ?_
  simpa [hstop] using congrArg String.ofList hfront.symm

theorem Scanner.scan_semicolon (h : IsClosed trivia.toList) :
    (Scanner.ofText (trivia ++ ";")).scan.kind = .semicolon ∧
      (Scanner.ofText (trivia ++ ";")).scan.trivia = trivia := by
  have hstop := (triviaEnd_of_run {} 0 [';'] h nofun (by rintro c ⟨rfl⟩; decide)).1
  obtain ⟨front, hfront, hoffset⟩ := leads_triviaEnd .between {} 0 (trivia.toList ++ [';'])
  dsimp only [Scanner.scan, Scanner.ofText, Scanner.trivia, Cursor.ofText]
  rw [String.toList_append, show ";".toList = [';'] from rfl]
  generalize triviaEnd .between {} 0 (trivia.toList ++ [';']) = found at hstop hfront hoffset ⊢
  obtain ⟨⟨offset, rest⟩, flags, findings⟩ := found
  obtain rfl : rest = [';'] := hstop
  refine ⟨rfl, (Cursor.textTo_of_append hfront hoffset).trans ?_⟩
  rw [← List.append_cancel_right hfront, String.ofList_toList]

/-- In front of the current token there is trivia, closed unless the token is the end of the
text. -/
def Scanner.Skips (s : Scanner) : Prop :=
  ∃ front, s.full.rest = front ++ s.start.rest ∧ s.start.offset = s.full.offset + byteLength front ∧
    IsWhole front ∧ (s.kind ≠ .endOfFile → IsClosed front)

namespace Scanner

variable {text : String} {s : Scanner}

theorem Fits.here_take (h : s.Fits text) (hbang : text.toList.take 2 ≠ ['#', '!'])
    (hzero : s.here.offset = 0) : s.here.rest.take 2 ≠ ['#', '!'] := by
  rwa [h.toHere.eq_of_offset (.refl _) hzero]

theorem skips_scan (hfits : s.Fits text) (hbang : text.toList.take 2 ≠ ['#', '!']) :
    s.scan.Skips := by
  obtain ⟨front, phase, hsplit, hrun, hphase, hclosed, -⟩ :=
    triviaEnd_passes .between {} s.here.offset s.here.rest (hfits.here_take hbang)
  obtain ⟨front', hsplit', hoffset⟩ := s.leads_scan
  obtain rfl : front = front' := List.append_cancel_right (hsplit.symm.trans hsplit')
  refine ⟨front, hsplit, hoffset, ⟨phase, hrun, hphase⟩, fun hkind => ?_⟩
  have hrest : (triviaEnd .between {} s.here.offset s.here.rest).stop.rest ≠ [] := by
    intro hnil
    refine hkind ?_
    change (readToken _ _).kind = .endOfFile
    rw [readToken, hnil]
  obtain rfl := hclosed hrest
  exact hrun

theorem Rereads.of_end {advance : Scanner → Scanner} (h : Rereads advance)
    (hend : s.kind = .endOfFile) :
    advance s = s := by
  have hword : TokenKind.endOfFile.isIdentifierOrKeyword = false := by decide
  cases h <;> simp [Scanner.rescanSlash, Scanner.rescanTemplate, Scanner.rescanGreater,
    Scanner.rescanJsxName, Scanner.rescanJsxValue, hend, hword]

theorem Reached.skips (hbang : text.toList.take 2 ≠ ['#', '!']) (h : Reached text s) : s.Skips := by
  induction h using Reached.induct with
  | start => exact skips_scan (Fits.ofText text) hbang
  | scan hs ih => exact skips_scan hs.fits hbang
  | scanJsx hs ih =>
    exact ⟨[], by rw [scanJsx_full, scanJsx_start]; rfl, by rw [scanJsx_full, scanJsx_start]; rfl,
      IsClosed.nil.isWhole, fun _ => .nil⟩
  | @reread s _ hs hadvance ih =>
    obtain ⟨front, hsplit, hoffset, hwhole, hclosed⟩ := ih
    obtain ⟨hfull, hstart⟩ := hadvance.place s
    refine ⟨front, by rw [hfull, hstart, hsplit],
      by rw [hfull, hstart, hoffset], hwhole, fun hkind => ?_⟩
    exact hclosed fun hend => hkind (by rw [hadvance.of_end hend, hend])

end Scanner

/-! ## Comments -/

namespace Text

/-- A line break that is no newline. The scanner ends a line comment there, and the list of
comments does not. -/
def isSeparator (c : Char) : Bool := isLineBreak c && !isNewline c

/-- The phase of a reader that stands where the reader of comments does. -/
def CommentMode.phase : CommentMode → Phase
  | .outside => .between
  | .inLine _ => .line
  | .inBlock _ => .block

theorem isLineBreak_eq {c : Char} (h : isSeparator c = false) :
    isLineBreak c = (c == '\n' || c == '\r') := by
  have hnewline : isNewline c → isLineBreak c := by
    unfold isNewline isLineBreak
    grind
  unfold isSeparator at h
  unfold isNewline at *
  grind

/-- The comments of trivia that ends in some phase: each starts where closed trivia ends, or is the
one that was open before, and a line comment without a newline is the last one. -/
structure ReadsComments (mode : CommentMode) (offset : Nat) (cs : List Char) (phase : Phase)
    (comments : List Comment) : Prop where
  start : ∀ comment ∈ comments,
    (∃ front back, cs = front ++ back ∧ comment.start = offset + byteLength front ∧
      mode.phase.run front = some .between) ∨
    mode = .inLine comment.start ∨ mode = .inBlock comment.start
  newline : ∀ comment ∈ comments, comment.kind = .line → comment.newlineAfter ∨ phase = .line
  last : phase = .line → ∃ comment, comments.getLast? = some comment ∧ comment.kind = .line

section ReadsComments

variable {mode later : CommentMode} {offset start : Nat} {cs : List Char} {phase : Phase}
  {comments : List Comment}

/-- Characters that lead to another mode and end no comment. -/
theorem ReadsComments.advance (piece : List Char)
    (h : ReadsComments later (offset + byteLength piece) cs phase comments)
    (hrun : ∀ front back, cs = front ++ back → later.phase.run front = some .between →
      mode.phase.run (piece ++ front) = some .between)
    (hlater : later = mode ∨ mode = .outside ∧ (later = .inLine offset ∨ later = .inBlock offset)) :
    ReadsComments mode offset (piece ++ cs) phase comments := by
  refine ⟨fun comment hcomment => ?_, h.newline, h.last⟩
  rcases h.start comment hcomment with ⟨front, back, rfl, hstart, hfront⟩ | hopen
  · refine .inl ⟨piece ++ front, back, by simp, ?_, hrun front back rfl hfront⟩
    rw [hstart, byteLength_append]
    omega
  · rcases hlater with rfl | ⟨rfl, hlater⟩
    · exact .inr hopen
    · refine .inl ⟨[], piece ++ cs, rfl, ?_, rfl⟩
      rcases hlater with rfl | rfl
      · rcases hopen with hopen | hopen
        · cases hopen
          rfl
        · cases hopen
      · rcases hopen with hopen | hopen
        · cases hopen
        · cases hopen
          rfl

/-- Characters that end the comment that was open. -/
theorem ReadsComments.finish {comment : Comment} (piece : List Char)
    (h : ReadsComments .outside (offset + byteLength piece) cs phase comments)
    (hrun : mode.phase.run piece = some .between)
    (hmode : mode = .inLine comment.start ∨ mode = .inBlock comment.start)
    (hcomment : comment.kind = .line → comment.newlineAfter) :
    ReadsComments mode offset (piece ++ cs) phase (comment :: comments) := by
  refine ⟨fun other hother => ?_, fun other hother hline => ?_, fun hphase => ?_⟩
  · rcases List.mem_cons.1 hother with rfl | hother
    · exact .inr hmode
    · rcases h.start other hother with ⟨front, back, rfl, hstart, hfront⟩ | hopen | hopen
      · refine .inl ⟨piece ++ front, back, by simp, ?_, ?_⟩
        · rw [hstart, byteLength_append]
          omega
        · rw [Phase.run_append, hrun]
          exact hfront
      · cases hopen
      · cases hopen
  · rcases List.mem_cons.1 hother with rfl | hother
    · exact .inl (hcomment hline)
    · exact h.newline other hother hline
  · obtain ⟨last, hlast, hline⟩ := h.last hphase
    exact ⟨last, by simp [List.getLast?_cons, hlast], hline⟩

end ReadsComments

theorem commentsFrom_reads (mode : CommentMode) (offset : Nat) (cs : List Char) :
    ∀ {phase : Phase}, mode.phase.run cs = some phase → phase ≠ .slash →
      (∀ c ∈ cs, isSeparator c = false) →
      ReadsComments mode offset cs phase (commentsFrom mode offset cs) := by
  fun_induction commentsFrom mode offset cs
  all_goals intro phase hrun hphase hplain
  case case1 offset =>
    cases hrun
    exact ⟨nofun, nofun, nofun⟩
  case case2 offset rest ih =>
    have hrest := ih hrun hphase (fun c hc => hplain c (by simp [hc]))
    exact hrest.advance ['/', '/'] (fun _ _ _ h => h) (.inr ⟨rfl, .inl rfl⟩)
  case case3 offset rest ih =>
    have hrest := ih hrun hphase (fun c hc => hplain c (by simp [hc]))
    exact hrest.advance ['/', '*'] (fun _ _ _ h => h) (.inr ⟨rfl, .inr rfl⟩)
  case case4 offset c rest hline hblock ih =>
    have hblank := Phase.blank_of_run hrun hphase (head?_ne_of_not_cons hline)
      (head?_ne_of_not_cons hblock)
    have hrest := ih ((Phase.run_between_cons hblank).symm.trans hrun) hphase
      (fun c hc => hplain c (by simp [hc]))
    exact hrest.advance [c] (fun front _ _ h => (Phase.run_between_cons hblank).trans h) (.inl rfl)
  case case5 offset start =>
    cases hrun
    exact ⟨by simp, by simp [CommentMode.phase], fun _ => ⟨_, rfl, rfl⟩⟩
  case case6 offset start c rest hbreak ih =>
    have hc : isLineBreak c := (isLineBreak_eq (hplain c (by simp))).trans hbreak
    have hstep : ∀ front, Phase.line.run (c :: front) = Phase.between.run front := fun front => by
      rw [Phase.run_line_cons, if_pos hc]
    have hrest := ih ((hstep rest).symm.trans hrun) hphase (fun c hc => hplain c (by simp [hc]))
    have hsize : byteLength [c] = 1 := by
      rcases (by simpa using hbreak : c = '\n' ∨ c = '\r') with rfl | rfl <;> rfl
    rw [← hsize] at hrest ⊢
    exact hrest.finish [c] (hstep []) (.inl rfl) fun _ => rfl
  case case7 offset start c rest hbreak ih =>
    have hc : isLineBreak c = false :=
      (isLineBreak_eq (hplain c (by simp))).trans (by simpa using hbreak)
    have hstep : ∀ front, Phase.line.run (c :: front) = Phase.line.run front := fun front => by
      rw [Phase.run_line_cons, hc]
      rfl
    have hrest := ih ((hstep rest).symm.trans hrun) hphase (fun c hc => hplain c (by simp [hc]))
    exact hrest.advance [c] (fun front _ _ h => (hstep front).trans h) (.inl rfl)
  case case8 offset start =>
    cases hrun
    exact ⟨by simp, by simp, nofun⟩
  case case9 offset start rest ih =>
    have hrest := ih hrun hphase (fun c hc => hplain c (by simp [hc]))
    exact hrest.finish ['*', '/'] rfl (.inr rfl) nofun
  case case10 offset start c rest hclose ih =>
    rcases Phase.run_block_cons (head?_ne_of_not_cons hclose) with hsame | ⟨rfl, rfl⟩
    · have hrest := ih (hsame.symm.trans hrun) hphase (fun c hc => hplain c (by simp [hc]))
      refine hrest.advance [c] (fun front back hsplit h => ?_) (.inl rfl)
      have hhead : c = '*' → front.head? ≠ some '/' := by
        intro hc hhead
        obtain ⟨front, rfl⟩ := List.head?_eq_some_iff.1 hhead
        exact hclose (front ++ back) hc hsplit
      rcases Phase.run_block_cons hhead with hfront | ⟨-, rfl⟩
      · exact hfront.trans h
      · cases h
    · cases hrun
      simp only [commentsFrom]
      exact ⟨by simp, by simp, nofun⟩

end Text

end Untype
