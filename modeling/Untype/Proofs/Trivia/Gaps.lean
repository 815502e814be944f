-- What the erasure makes of trivia is trivia again, as long as the last
-- newline of a piece that is cut there lies in no block comment.
import Untype.Erasure.Gap
import Untype.Proofs.Trivia.Phases

namespace Untype

open Text

namespace Text

variable {cs : List Char}

/-! ## White space -/

theorem isBlankOrLineBreak_of_isWhiteSpace {c : Char} (h : isWhiteSpace c) :
    isBlankOrLineBreak c := by
  have hcontrol : 0x09 ≤ c.toNat → c.toNat ≤ 0x0d →
      c = '\t' ∨ c = '\n' ∨ c = '\x0b' ∨ c = '\x0c' ∨ c = '\r' := by
    intro hlow hhigh
    rw [← Char.ofNat_toNat c]
    obtain h | h | h | h | h : c.toNat = 9 ∨ c.toNat = 10 ∨ c.toNat = 11 ∨ c.toNat = 12 ∨
        c.toNat = 13 := by omega
    all_goals simp [h]
  unfold isWhiteSpace at h
  unfold isBlankOrLineBreak isBlank isLineBreak
  grind

theorem isClosed_of_blank (h : ∀ c ∈ cs, isBlankOrLineBreak c) : IsClosed cs := by
  induction cs with
  | nil => exact .nil
  | cons c cs ih =>
    rw [List.forall_mem_cons] at h
    exact (Phase.run_between_cons h.1).trans (ih h.2)

theorem blank_of_not_opensComment (hwhole : IsWhole cs) (h : opensComment cs = false) :
    ∀ c ∈ cs, isBlankOrLineBreak c := by
  obtain ⟨phase, hrun, hphase⟩ := hwhole
  fun_induction opensComment cs with
  | case1 => simp
  | case2 | case3 => cases h
  | case4 c rest hline hblock ih =>
    have hblank := Phase.blank_of_run hrun hphase (head?_ne_of_not_cons hline)
      (head?_ne_of_not_cons hblock)
    have hrest := ih h ((Phase.run_between_cons hblank).symm.trans hrun)
    exact List.forall_mem_cons.2 ⟨hblank, hrest⟩

theorem opensComment_of_whiteSpace (h : ∀ c ∈ cs, isWhiteSpace c) :
    opensComment cs = false := by
  fun_induction opensComment cs with
  | case1 => rfl
  | case2 | case3 => exact absurd (h '/' (by simp)) (by decide)
  | case4 c rest _ _ ih => exact ih fun d hd => h d (List.mem_cons_of_mem _ hd)

theorem run_dropWhile (cs : List Char) :
    Phase.between.run (cs.dropWhile isWhiteSpace) = Phase.between.run cs := by
  induction cs with
  | nil => rfl
  | cons c cs ih =>
    rw [List.dropWhile_cons]
    split
    · rename_i hc
      rw [ih, Phase.run_between_cons (isBlankOrLineBreak_of_isWhiteSpace hc)]
    · rfl

theorem run_trimStart (text : String) :
    Phase.between.run (trimStart text).toList = Phase.between.run text.toList := by
  simp [trimStart, run_dropWhile]

end Text

namespace Erasure

variable {before after trivia removed : String} {cs : List Char} {phase : Phase}

/-! ## Cuts -/

/-- Cut at its last newline, the trivia would leave a block comment open. -/
def cutsComment (trivia : String) : Bool :=
  (splitAtLastNewline? trivia).any fun (before, _) => !(Scanner.ofText before).scan.findings.isEmpty

/-- A text is cut right behind its last newline. -/
theorem splitAtLastNewline?_eq_some {text : String}
    (h : splitAtLastNewline? text = some (before, after)) :
    text.toList = before.toList ++ after.toList ∧
      ∃ front c, before.toList = front ++ [c] ∧ isNewline c := by
  unfold splitAtLastNewline? at h
  dsimp only at h
  split at h
  · cases h
  · rename_i hne
    cases h
    simp only [String.toList_ofList]
    have hsplit := List.takeWhile_append_dropWhile
      (p := fun c => !isNewline c) (l := text.toList.reverse)
    refine ⟨?_, ?_⟩
    · rw [← List.reverse_append, hsplit, List.reverse_reverse]
    · obtain ⟨c, rest, hcons⟩ := List.exists_cons_of_ne_nil hne
      refine ⟨rest.reverse, c, by simp [hcons], ?_⟩
      simpa [hcons] using List.head_dropWhile_not (fun c => !isNewline c) hne

theorem run_newline {c : Char} (hc : isNewline c)
    (h : Phase.between.run (cs ++ [c]) = some phase) : phase = .between ∨ phase = .block := by
  obtain ⟨middle, -, hlast⟩ := Phase.run_append_eq_some.1 h
  rcases (by simpa [isNewline] using hc : c = '\n' ∨ c = '\r') with rfl | rfl <;>
    cases middle <;> cases hlast <;> simp

theorem isClosed_of_split (hclosed : IsClosed trivia.toList) (hcut : cutsComment trivia = false)
    (h : splitAtLastNewline? trivia = some (before, after)) :
    IsClosed before.toList ∧ IsClosed after.toList := by
  obtain ⟨hsplit, front, c, hbefore, hc⟩ := splitAtLastNewline?_eq_some h
  rw [Text.IsClosed, hsplit] at hclosed
  obtain ⟨middle, hfront, hback⟩ := Phase.run_append_eq_some.1 hclosed
  rcases run_newline hc (hbefore ▸ hfront) with rfl | rfl
  · exact ⟨hfront, hback⟩
  · have hopen := (Scanner.scan_trivia hfront nofun).2.2
    rw [cutsComment, h] at hcut
    exact absurd (hopen.1 (by simpa using hcut)) nofun

/-! ## Comments of removed pieces -/

/-- The trivia has no line breaks but newlines. -/
def IsPlain (trivia : String) : Prop := ∀ c ∈ trivia.toList, isSeparator c = false

theorem cutBefore_cases (trivia : String) (cut : Nat) (comments : List Comment) :
    cutBefore trivia cut comments = cut ∨
      ∃ comment ∈ comments, cutBefore trivia cut comments = comment.start := by
  fun_induction cutBefore trivia cut comments with
  | case1 | case2 | case3 | case5 => exact .inl rfl
  | case4 cut comment rest _ _ _ ih =>
    rcases ih with hstart | ⟨other, hother, hstart⟩
    · exact .inr ⟨comment, List.mem_cons_self, hstart⟩
    · exact .inr ⟨other, List.mem_cons_of_mem _ hother, hstart⟩

theorem isClosed_unitGap (hclosed : IsClosed trivia.toList) (hplain : IsPlain trivia) :
    IsClosed (unitGap trivia).toList := by
  unfold unitGap
  rcases cutBefore_cases trivia trivia.utf8ByteSize (comments trivia).reverse with
    hall | ⟨comment, hcomment, hstart⟩
  · rwa [hall, slice_all]
  · have hreads := commentsFrom_reads .outside 0 trivia.toList hclosed nofun hplain
    rcases hreads.start comment (List.mem_reverse.1 hcomment) with
      ⟨front, back, hsplit, hfront, hrun⟩ | h | h
    · have hslice : slice trivia (byteLength []) (byteLength ([] ++ front)) = .ofList front :=
        slice_eq_ofList hsplit
      rw [byteLength_nil, List.nil_append] at hslice
      rwa [hstart, hfront, Nat.zero_add, hslice, String.toList_ofList]
    · cases h
    · cases h

/-- White space cannot close a block comment. -/
theorem run_whiteSpace (hcs : ∀ c ∈ cs, isWhiteSpace c) (h : phase.run cs = some .between) :
    phase = .between ∨ phase = .line := by
  induction cs generalizing phase with
  | nil =>
    cases h
    exact .inl rfl
  | cons c cs ih =>
    rw [List.forall_mem_cons] at hcs
    obtain ⟨hslash, hstar⟩ : c ≠ '/' ∧ c ≠ '*' := by
      constructor <;> rintro rfl <;> exact absurd hcs.1 (by decide)
    obtain ⟨later, hnext, hrest⟩ := Option.bind_eq_some_iff.1 h
    cases phase with
    | between => exact .inl rfl
    | line => exact .inr rfl
    | slash => simp [Phase.next, hslash, hstar] at hnext
    | block | star =>
      obtain rfl : later = .block := by simpa [Phase.next, hslash, hstar] using hnext.symm
      rcases ih hcs.2 hrest with h | h <;> cases h

theorem exists_trimEnd (text : String) :
    ∃ blanks, text.toList = (trimEnd text).toList ++ blanks ∧ ∀ c ∈ blanks, isWhiteSpace c := by
  refine ⟨(text.toList.reverse.takeWhile isWhiteSpace).reverse, ?_, fun c hc => ?_⟩
  · rw [trimEnd, String.toList_ofList, ← List.reverse_append, List.takeWhile_append_dropWhile,
      List.reverse_reverse]
  · exact List.all_eq_true.1 List.all_takeWhile c (List.mem_reverse.1 hc)

theorem isClosed_insideComments (hclosed : IsClosed trivia.toList) (hplain : IsPlain trivia) :
    IsClosed (insideComments trivia).toList := by
  unfold insideComments
  split
  · obtain ⟨blanks, hsplit, hblanks⟩ := exists_trimEnd trivia
    rw [Text.IsClosed, hsplit] at hclosed
    obtain ⟨phase, hpiece, hrest⟩ := Phase.run_append_eq_some.1 hclosed
    have hphase := run_whiteSpace hblanks hrest
    have hplain' : IsPlain (trimEnd trivia) := fun c hc => hplain c (by simp [hsplit, hc])
    dsimp only
    rcases hphase with rfl | rfl
    · -- No comment is open at the end, and a newline more does no harm.
      have hmore : IsClosed (trimEnd trivia ++ "\n").toList := by
        rw [String.toList_append]
        exact IsClosed.append hpiece rfl
      split
      · split
        · exact hmore
        · exact hpiece
      · exact hpiece
    · obtain ⟨comment, hlast, hline⟩ :=
        (commentsFrom_reads .outside 0 _ hpiece nofun hplain').last rfl
      rw [comments, hlast]
      simp only [hline, beq_self_eq_true, if_true, String.toList_append]
      rw [Text.IsClosed, Phase.run_append, hpiece]
      rfl
  · exact .nil

/-! ## Trivia on its way -/

/-- The trivia of a removed piece that can be put together with other trivia. -/
structure IsGap (gap : String) : Prop where
  closed : IsClosed gap.toList
  cut : cutsComment gap = false

theorem isClosed_join {own : String} (hremoved : IsGap removed) (hown : IsClosed own.toList)
    (first : Bool) : IsClosed (join removed own first).toList := by
  have htrimmed : IsClosed (trimStart own).toList := (run_trimStart own).trans hown
  unfold join
  split
  · exact hown
  split
  · exact htrimmed
  split
  · rw [String.toList_append]
    exact hremoved.closed.append htrimmed
  rename_i hcomments
  have hblank := blank_of_not_opensComment hown.isWhole (by simpa [hasComments] using hcomments)
  split
  · rename_i before _ _ after hbefore hafter
    obtain ⟨hsplit, -⟩ := splitAtLastNewline?_eq_some hafter
    rw [String.toList_append]
    refine (isClosed_of_split hremoved.closed hremoved.cut hbefore).1.append (isClosed_of_blank ?_)
    exact fun c hc => hblank c (by simp [hsplit, hc])
  · split
    · exact hremoved.closed
    · exact hown
  · exact hremoved.closed

theorem run_joinAtEnd (hremoved : IsClosed removed.toList) (own : String) :
    Phase.between.run (joinAtEnd removed own).toList = Phase.between.run own.toList := by
  unfold joinAtEnd
  split
  · rw [String.toList_append, hremoved.run_append, run_trimStart]
  · rfl

/-- What waits is trivia that a token can follow. -/
structure Pending.IsSound (pending : Pending) : Prop where
  inherited : IsClosed pending.inherited.toList
  gap : ∀ gap first, pending.gap = some (gap, first) → IsGap gap

namespace Pending.IsSound

variable {pending : Pending}

theorem empty : Pending.IsSound {} := ⟨.nil, nofun⟩

theorem collapse {gap : String} (h : pending.IsSound) (hgap : IsGap gap) (first : Bool) :
    (pending.collapse gap first).IsSound := by
  refine ⟨h.inherited, fun gap' first' heq => ?_⟩
  rw [Pending.collapse] at heq
  cases hold : pending.gap with
  | none =>
    rw [hold] at heq
    cases heq
    exact hgap
  | some old =>
    rw [hold] at heq
    exact h.gap gap' first' (hold.trans heq)

theorem inherit {comments : String} (h : pending.IsSound) (hcomments : IsClosed comments.toList) :
    (pending.inherit comments).IsSound := by
  refine ⟨?_, h.gap⟩
  rw [Pending.inherit, String.toList_append]
  exact h.inherited.append hcomments

/-- What waits, put in front of the trivia of a token, does not change how that ends. -/
theorem run_apply (h : pending.IsSound) {own : String} {atEnd : Bool}
    (hown : atEnd = false → IsClosed own.toList) :
    Phase.between.run (pending.apply own atEnd).toList = Phase.between.run own.toList := by
  have hinherited : ∀ base : String, Phase.between.run base.toList = Phase.between.run own.toList →
      Phase.between.run (if pending.inherited.isEmpty then base
        else
          let apart := base.toList.head?.any isWhiteSpace ||
            pending.inherited.toList.getLast?.any isWhiteSpace
          pending.inherited ++ (if apart then "" else " ") ++ base).toList =
        Phase.between.run own.toList := by
    intro base hbase
    split
    · exact hbase
    · dsimp only
      rw [String.toList_append, String.toList_append, List.append_assoc, h.inherited.run_append]
      split
      · exact hbase
      · exact hbase
  unfold apply
  refine hinherited _ ?_
  split
  · rename_i gap first hgap
    cases atEnd with
    | true => exact run_joinAtEnd (h.gap gap first hgap).closed own
    | false => exact (isClosed_join (h.gap gap first hgap) (hown rfl) first).trans (hown rfl).symm
  · rfl

end Pending.IsSound

end Erasure

end Untype
