-- Line breaks in trivia: the scanner sees every one of them, and the erasure
-- makes none where there was none.
import Untype.Proofs.Erasure.Faithful
import Untype.Proofs.Trivia.Comments

namespace Untype

open Text

variable {text : String}

/-! ## What the scanner sees -/

/-- Of the characters up to the rest, each line break counts. -/
def Text.Sees (before : Bool) (cs rest : List Char) (after : Bool) : Prop :=
  ∃ front, cs = front ++ rest ∧ after = (before || front.any isLineBreak)

theorem Text.Sees.refl (before : Bool) (cs : List Char) : Sees before cs cs before :=
  ⟨[], rfl, by simp⟩

theorem Text.Sees.cons {before after : Bool} {c : Char} {cs rest : List Char}
    (h : Sees (before || isLineBreak c) cs rest after) : Sees before (c :: cs) rest after := by
  obtain ⟨front, rfl, rfl⟩ := h
  exact ⟨c :: front, rfl, by simp [Bool.or_assoc]⟩

theorem Text.Sees.skip {before after : Bool} {c : Char} {cs rest : List Char}
    (hc : isLineBreak c = false) (h : Sees before cs rest after) :
    Sees before (c :: cs) rest after :=
  .cons (by rwa [hc, Bool.or_false])

/-- The scanner sees each line break that it passes over, and nothing else for one. -/
theorem triviaEnd_sees (mode : TriviaMode) (flags : TokenFlags) (offset : Nat) (cs : List Char) :
    Sees flags.lineBreak cs (triviaEnd mode flags offset cs).stop.rest
      (triviaEnd mode flags offset cs).flags.lineBreak := by
  fun_induction triviaEnd mode flags offset cs
  case case2 ih | case6 ih => exact .skip (by decide) (.skip (by decide) ih)
  case case3 flags _ _ c rest hend flags' ih =>
    have hflags : flags'.lineBreak = (flags.lineBreak || isLineBreak c) := by
      unfold flags'
      split <;> simp_all
    exact .cons (hflags ▸ ih)
  case case4 hc ih | case8 hc ih => exact .cons (by rwa [hc, Bool.or_true])
  case case5 hc ih | case9 hc _ ih | case10 hc _ _ ih => exact .skip (by simpa using hc) ih
  case case7 flags _ _ flags' ih =>
    have hflags : flags'.lineBreak = flags.lineBreak := by
      unfold flags'
      split <;> rfl
    exact .skip (by decide) (.skip (by decide) (hflags ▸ ih))
  all_goals exact .refl _ _

theorem readToken_lineBreak (flags : TokenFlags) (start : Cursor) :
    (readToken flags start).flags.lineBreak = flags.lineBreak := by
  unfold readToken readString readTemplate readNumber baseDigits readPrivateName readName
    readUnknown
  grind

namespace Scanner

variable {text : String} {s : Scanner}

theorem scan_afterLineBreak (s : Scanner) : s.scan.afterLineBreak =
    (triviaEnd .between {} s.here.offset s.here.rest).flags.lineBreak := readToken_lineBreak _ _

theorem Reached.start_eq (h : Reached text s) :
    s.start = s.full ∨ s.start = (triviaEnd .between {} s.full.offset s.full.rest).stop := by
  induction h using Reached.induct with
  | start | scan _ ih => exact .inr rfl
  | scanJsx _ ih => exact .inl ((scanJsx_start _).trans (scanJsx_full _).symm)
  | @reread s _ _ hadvance ih => rwa [(hadvance.place s).1, (hadvance.place s).2]

end Scanner

namespace Text

/-! ## Pieces without line breaks -/

variable {own removed : String}

theorem hasLineBreak_eq_false :
    hasLineBreak text = false ↔ ∀ c ∈ text.toList, isLineBreak c = false := by
  simp [hasLineBreak]

@[simp]
theorem hasLineBreak_append (front back : String) :
    hasLineBreak (front ++ back) = (hasLineBreak front || hasLineBreak back) := by
  simp [hasLineBreak]

theorem hasLineBreak_trimStart (h : hasLineBreak own = false) :
    hasLineBreak (trimStart own) = false := by
  rw [hasLineBreak_eq_false] at h ⊢
  intro c hc
  rw [trimStart, String.toList_ofList] at hc
  exact h c ((List.dropWhile_sublist _).subset hc)

end Text

theorem Scanner.Fits.slice_trivia {s : Scanner} (h : s.Fits text) {front : List Char}
    (hfront : s.full.rest = front ++ s.start.rest) :
    slice text s.full.offset s.start.offset = .ofList front := by
  obtain ⟨before, hbefore, hfull⟩ := h.full
  obtain ⟨front', hfront', hoffset⟩ := h.start
  obtain rfl : front = front' := List.append_cancel_right (hfront.symm.trans hfront')
  rw [hoffset, hfull, Cursor.ofText, Nat.zero_add, ← byteLength_append]
  have hwhole : text.toList = before ++ front ++ s.start.rest := by
    rw [List.append_assoc, ← hfront]
    exact hbefore
  exact slice_eq_ofList hwhole

/-- Wherever a scanner was brought, the next token comes after a line break if and only if the text
between the end of the last one and its own start has a line break. -/
theorem History.afterLineBreak_eq_hasLineBreak (text : String) (requests : List Request) :
    let s := ((ofText text).afterAll requests).scanner.scan
    s.afterLineBreak = hasLineBreak (slice text s.full.offset s.start.offset) := by
  have hfits := (Fits.afterAll requests (.ofText text)).scanner
  generalize ((ofText text).afterAll requests).scanner = s at hfits
  intro
  obtain ⟨front, hfront, hseen⟩ := triviaEnd_sees .between {} s.here.offset s.here.rest
  rw [hfits.scan.slice_trivia hfront, Scanner.scan_afterLineBreak, hseen, hasLineBreak,
    String.toList_ofList]
  rfl

/-- The first token of a piece of the text stands on the line of the token before the piece. -/
theorem Node.Unbroken.not_hasLineBreak {word node : Node} {i j : Nat} (h : word.Unbroken text)
    (htiles : node.Tiles text i j) (hnext : word.span.stop = i) :
    hasLineBreak (node.firstLeaf.leadingTrivia text) = false := by
  obtain ⟨s, hs, hstop, hflag⟩ := h
  obtain ⟨token, k, hfirst, -, htoken⟩ := firstLeaf_of_tiles htiles
  obtain ⟨hread, hpos, -⟩ : token.Read text ∧ token.span.pos = i ∧ token.span.stop = k := by
    simpa only [Tiles] using htoken
  obtain ⟨t, ht, -, hspan⟩ := hread.reading
  have htrivia : token.trivia = none := hread.bare
  have hplace : t.full = s.here := by
    refine ht.fits.full.eq_of_offset hs.fits.toHere ?_
    rw [← hstop, hnext, ← hpos, hspan]
  obtain ⟨front, hfront, hoffset⟩ := ht.fits.start
  have hbreaks : ∀ c ∈ front, isLineBreak c = false := by
    rcases ht.start_eq with hempty | hend
    · obtain rfl : front = [] := eq_nil_of_byteLength (by rw [hempty] at hoffset; omega)
      simp
    · rw [Scanner.scan_afterLineBreak] at hflag
      obtain ⟨front', hfront', hseen⟩ := triviaEnd_sees .between {} s.here.offset s.here.rest
      rw [hplace] at hend hfront
      rw [← hend] at hfront'
      obtain rfl : front = front' := List.append_cancel_right (hfront.symm.trans hfront')
      simpa [hflag] using hseen.symm
  have hslice : slice text token.span.pos token.span.start = .ofList front := by
    rw [hspan]
    exact ht.fits.slice_trivia hfront
  rw [hfirst, leadingTrivia, htrivia, Option.getD_none, hslice, hasLineBreak_eq_false]
  simpa using hbreaks

/-! ## What the erasure makes of them -/

namespace Erasure

variable {own removed : String}

theorem hasLineBreak_of_split {before after : String}
    (h : splitAtLastNewline? own = some (before, after)) :
    hasLineBreak before ∧ hasLineBreak own := by
  obtain ⟨htext, front, c, hbefore, hc⟩ := splitAtLastNewline?_eq_some h
  have hbreak : isLineBreak c := by
    rw [isNewline] at hc
    simp [isLineBreak, hc]
  simp [hasLineBreak, htext, hbefore, hbreak]

theorem splitAtLastNewline?_eq_none (h : hasLineBreak own = false) :
    splitAtLastNewline? own = none := by
  cases hsplit : splitAtLastNewline? own with
  | none => rfl
  | some pieces => cases h.symm.trans (hasLineBreak_of_split hsplit).2

theorem hasLineBreak_join (hremoved : hasLineBreak removed = false)
    (hown : hasLineBreak own = false) (first : Bool) :
    hasLineBreak (join removed own first) = false := by
  have htrim := hasLineBreak_trimStart hown
  unfold join
  rw [splitAtLastNewline?_eq_none hremoved, splitAtLastNewline?_eq_none hown]
  repeat' split
  all_goals simp_all

theorem hasLineBreak_joinAtEnd (hremoved : hasLineBreak removed = false)
    (hown : hasLineBreak own = false) : hasLineBreak (joinAtEnd removed own) = false := by
  have htrim := hasLineBreak_trimStart hown
  unfold joinAtEnd
  split
  · simp [hremoved, htrim]
  · exact hown

theorem hasLineBreak_apply {pending : Pending} (hinherited : pending.inherited = "")
    (hgap : ∀ gap first, pending.gap = some (gap, first) → hasLineBreak gap = false)
    (hown : hasLineBreak own = false) (atEnd : Bool) :
    hasLineBreak (pending.apply own atEnd) = false := by
  unfold Pending.apply
  rw [hinherited]
  dsimp only
  rw [if_pos (by rfl)]
  split
  · rename_i gap first hsome
    split
    · exact hasLineBreak_joinAtEnd (hgap gap first hsome) hown
    · exact hasLineBreak_join (hgap gap first hsome) hown first
  · exact hown

/-- A separator and a semicolon are on the line of what follows. -/
theorem hasLineBreak_keptTrivia (source : String) (w : Walk) (node : Node) :
    hasLineBreak (keptTrivia source w node) =
      hasLineBreak (w.pending.apply (node.leadingTrivia source) (node.isToken .endOfFile)) := by
  have hlead := lead_mem w (w.pending.apply (node.leadingTrivia source) (node.isToken .endOfFile))
    (leafText source node).toList.head?
  rw [keptTrivia_eq, hasLineBreak_append]
  generalize lead w _ _ = front at hlead ⊢
  simp only [List.mem_cons, List.not_mem_nil, or_false] at hlead
  rcases hlead with rfl | rfl | rfl <;> rfl

end Erasure

end Untype
