-- What a scanner found stands in the order of the text, and no finding lies
-- behind the current token. So the number of findings is enough to come back
-- to a scanner from wherever it went on to.
import Untype.Proofs.Tokens.Histories
import Untype.Proofs.Tokens.Manners

namespace Untype

open Untype.Text Cursor

/-- A comment that does not end is found at its start, and it is the last thing in the text. -/
theorem triviaEnd_ordered {low : Nat} (mode : TriviaMode) (flags : TokenFlags) (offset : Nat)
    (cs : List Char) (hlow : low ≤ offset)
    (hmode : ∀ start, mode = .blockComment start → low ≤ start ∧ start < offset) :
    Ordered low (triviaEnd mode flags offset cs).stop.offset
      (triviaEnd mode flags offset cs).findings := by
  fun_induction triviaEnd mode flags offset cs with
  | case1 _ _ start =>
    obtain ⟨hstart, hoffset⟩ := hmode start rfl
    exact .single hstart hoffset
  | case11 | case12 => exact .nil
  | case2 _ _ _ _ ih => exact ih (by omega) (by simp)
  | case3 _ _ start _ _ _ _ ih =>
    refine ih (by omega) fun start' hstart' => ?_
    have := hmode start' hstart'
    omega
  | case4 _ _ _ _ _ ih | case5 _ _ _ _ _ ih | case6 _ _ _ ih => exact ih (by omega) (by simp)
  | case7 _ offset _ _ ih =>
    refine ih (by omega) fun start hstart => ?_
    cases hstart
    omega
  | case8 _ _ _ _ _ _ _ ih | case9 _ _ _ _ _ _ _ _ ih | case10 _ _ _ _ _ _ _ _ _ ih =>
    exact ih (by omega) (by simp)

namespace Scanner

variable {text : String} {s t b : Scanner} {advance : Scanner → Scanner}

/-! ## Scanners -/

/-- The findings stand in order and before the end of the current token. If the token may yet be
read anew, they stand before its start. -/
structure Orderly (s : Scanner) : Prop where
  findings : Ordered 0 s.here.offset s.findings
  plain : s.kind.isReplaced → Ordered 0 s.start.offset s.findings
  string : s.kind = .stringLiteral → ∀ finding ∈ s.findings, finding.start ≤ s.start.offset

/-- What a scanner finds on its way to the next token. -/
theorem scan_ordered (s : Scanner) :
    ∃ new, s.scan.findings = s.findings ++ new ∧ Ordered s.here.offset s.scan.here.offset new ∧
      (s.scan.kind.isReplaced → Ordered s.here.offset s.scan.start.offset new) ∧
      (s.scan.kind = .stringLiteral → ∀ finding ∈ new, finding.start ≤ s.scan.start.offset) := by
  have htrivia := triviaEnd_ordered .between {} s.here.offset s.here.rest
    (Nat.le_refl s.here.offset) nofun
  have htoken := readToken_fits (triviaEnd .between {} s.here.offset s.here.rest).flags
    (triviaEnd .between {} s.here.offset s.here.rest).stop
  have hstart := s.leads_scan.le
  refine ⟨_, rfl, htrivia.append htoken.findings hstart htoken.stop.le, fun hreplaced => ?_,
    fun hkind => List.forall_mem_append.2 ⟨fun finding hfinding => ?_, ?_⟩⟩
  · rw [htoken.plain hreplaced, List.append_nil]
    exact htrivia
  · exact Nat.le_of_lt (htrivia.between finding hfinding).2
  · obtain ⟨quote, rest, -, -, hread⟩ := head?_of_stringLiteral hkind
    rw [hread, readString]
    split
    · exact nofun
    · exact List.forall_mem_singleton.2 (Nat.le_refl _)

theorem scanJsx_findings (s : Scanner) : s.scanJsx.findings = s.findings := by
  unfold Scanner.scanJsx
  dsimp only
  split <;> rfl

/-- A token that was read in another way. Findings before it stay, and there is one new finding
at most, at its start. -/
structure Anew (s t : Scanner) : Prop where
  start : t.start = s.start
  known : t.kind ≠ .unknown ∧ t.kind ≠ .endOfFile
  settled : t.kind.isReplaced = false
  string : t.kind = .stringLiteral → s.kind = .stringLiteral
  findings : t.findings = s.findings ∧ s.here.offset ≤ t.here.offset ∨
    ∃ new, t.findings = s.findings.filter (·.start < s.start.offset) ++ new ∧
      Ordered s.start.offset (s.start.offset + 1) new

/-- A sign is read as the start of something longer. -/
theorem reread_anew (h : s.Orderly) (hreplaced : s.kind.isReplaced) {token : Reading}
    (hknown : token.kind ≠ .unknown ∧ token.kind ≠ .endOfFile ∧ token.kind ≠ .stringLiteral)
    (hsettled : token.kind.isReplaced = false)
    (hnew : Ordered s.start.offset (s.start.offset + 1) token.findings) :
    s.Anew (s.reread token) := by
  refine ⟨rfl, ⟨hknown.1, hknown.2.1⟩, hsettled, fun hkind => absurd hkind hknown.2.2,
    .inr ⟨token.findings, ?_, hnew⟩⟩
  rw [(h.plain hreplaced).filter_eq (Nat.le_refl _)]
  rfl

theorem rescanSlash_anew (h : s.Orderly) : s.rescanSlash = s ∨ s.Anew s.rescanSlash := by
  unfold Scanner.rescanSlash
  split
  · rename_i hkind
    have hreplaced : s.kind.isReplaced := by
      rcases (by simpa using hkind : s.kind = .slash ∨ s.kind = .slashEquals) with hk | hk <;>
        simp [hk, TokenKind.isReplaced, TokenKind.opensAnew]
    right
    dsimp only
    split
    · exact reread_anew h hreplaced (by simp) rfl .nil
    · exact reread_anew h hreplaced (by simp) rfl
        (.single (Nat.le_refl _) (Nat.lt_succ_self _))
  · exact .inl rfl

theorem rescanTemplate_anew (h : s.Orderly) : s.rescanTemplate = s ∨ s.Anew s.rescanTemplate := by
  unfold Scanner.rescanTemplate
  split
  · rename_i hkind
    have hreplaced : s.kind.isReplaced := by
      simp [(by simpa using hkind : s.kind = .closeBrace), TokenKind.isReplaced,
        TokenKind.opensAnew]
    right
    unfold readTemplate
    dsimp only
    split
    iterate 2 exact reread_anew h hreplaced (by simp) rfl .nil
    · exact reread_anew h hreplaced (by simp) rfl
        (.single (Nat.le_refl _) (Nat.lt_succ_self _))
  · exact .inl rfl

theorem rescanGreater_anew (s : Scanner) : s.rescanGreater = s ∨ s.Anew s.rescanGreater := by
  unfold Scanner.rescanGreater
  dsimp only
  split
  · split
    all_goals first
      | exact .inl rfl
      | exact .inr ⟨rfl, by simp [reread], rfl, by simp [reread],
          .inl ⟨List.append_nil _, (leads_skip _ _).le⟩⟩
  · exact .inl rfl

theorem rescanJsxName_anew (s : Scanner) : s.rescanJsxName = s ∨ s.Anew s.rescanJsxName := by
  unfold Scanner.rescanJsxName
  split
  · exact .inr ⟨rfl, by simp [reread], rfl, nofun,
      .inl ⟨List.append_nil _, (leads_skipWhile _ _ _).le⟩⟩
  · exact .inl rfl

theorem rescanJsxValue_anew (s : Scanner) : s.rescanJsxValue = s ∨ s.Anew s.rescanJsxValue := by
  unfold Scanner.rescanJsxValue
  split
  · rename_i hkind _
    right
    dsimp only
    split
    · exact ⟨rfl, by simp [reread], rfl, fun _ => hkind, .inr ⟨_, rfl, .nil⟩⟩
    · exact ⟨rfl, by simp [reread], rfl, fun _ => hkind, .inr ⟨_, rfl,
        .single (Nat.le_refl _) (Nat.lt_succ_self _)⟩⟩
  · exact .inl rfl

theorem Orderly.reread_anew (h : s.Orderly) (hadvance : Rereads advance) :
    advance s = s ∨ s.Anew (advance s) := by
  cases hadvance with
  | slash => exact rescanSlash_anew h
  | template => exact rescanTemplate_anew h
  | greater => exact rescanGreater_anew s
  | jsxName => exact rescanJsxName_anew s
  | jsxValue => exact rescanJsxValue_anew s

/-! ## Order -/

theorem Orderly.ofText (text : String) : (Scanner.ofText text).Orderly := ⟨.nil, nofun, nofun⟩

theorem Orderly.scan (h : s.Orderly) : s.scan.Orderly := by
  obtain ⟨new, hfindings, hnew, hplain, hstring⟩ := scan_ordered s
  have hstart := s.leads_scan.le
  have hhere : s.scan.start.offset ≤ s.scan.here.offset := (readToken_fits _ _).stop.le
  refine ⟨?_, fun hreplaced => ?_, fun hkind => ?_⟩ <;> rw [hfindings]
  · exact h.findings.append hnew (Nat.zero_le _) (Nat.le_trans hstart hhere)
  · exact h.findings.append (hplain hreplaced) (Nat.zero_le _) hstart
  · refine List.forall_mem_append.2 ⟨fun finding hfinding => ?_, hstring hkind⟩
    exact Nat.le_trans (Nat.le_of_lt (h.findings.between finding hfinding).2) hstart

theorem Orderly.scanJsx (h : s.Orderly) (hfits : s.scanJsx.Fits text) : s.scanJsx.Orderly := by
  have hstart : s.scanJsx.start.offset = s.here.offset := by rw [scanJsx_start]
  have hhere := hfits.here.le
  refine ⟨?_, fun _ => ?_, fun _ finding hfinding => ?_⟩
  · rw [scanJsx_findings]
    exact h.findings.widen (Nat.le_refl _) (hstart ▸ hhere)
  · rw [scanJsx_findings, hstart]
    exact h.findings
  · rw [scanJsx_findings] at hfinding
    exact hstart ▸ Nat.le_of_lt (h.findings.between finding hfinding).2

theorem Anew.orderly (h : s.Anew t) (hs : s.Orderly) (hfits : t.Fits text) : t.Orderly := by
  have hplain : t.kind.isReplaced → Ordered 0 t.start.offset t.findings :=
    fun hreplaced => absurd hreplaced (by simp [h.settled])
  rcases h.findings with ⟨hsame, hle⟩ | ⟨new, hfindings, hnew⟩
  · refine ⟨hsame ▸ hs.findings.widen (Nat.le_refl _) hle, hplain, fun hkind => ?_⟩
    rw [hsame, h.start]
    exact hs.string (h.string hkind)
  · have hmoves := hfits.moves h.known.2 h.known.1
    rw [h.start] at hmoves
    have hbefore := hs.findings.before s.start.offset
    refine ⟨?_, hplain, fun _ => ?_⟩ <;> rw [hfindings]
    · exact hbefore.append (hnew.widen (Nat.le_refl _) hmoves) (Nat.zero_le _) (Nat.le_of_lt hmoves)
    · have hall := hbefore.append hnew (Nat.zero_le _) (Nat.le_succ _)
      exact fun finding hfinding => h.start ▸ Nat.le_of_lt_succ (hall.between finding hfinding).2

theorem Orderly.reread (h : s.Orderly) (hadvance : Rereads advance)
    (hfits : (advance s).Fits text) :
    (advance s).Orderly := by
  rcases h.reread_anew hadvance with hsame | hanew
  · exact hsame.symm ▸ h
  · exact hanew.orderly h hfits

theorem Reached.orderly (h : Reached text s) : s.Orderly := by
  induction h using Reached.induct with
  | start => exact (Orderly.ofText text).scan
  | scan _ ih => exact ih.scan
  | scanJsx h ih => exact ih.scanJsx h.scanJsx.fits
  | reread h hadvance ih => exact ih.reread hadvance (h.reread hadvance).fits

theorem Reached.moves (h : Reached text s) (hkind : s.kind ≠ .endOfFile) :
    s.start.offset < s.here.offset := by
  induction h using Reached.induct with
  | start | scan _ _ => exact scan_moves hkind
  | scanJsx h _ => exact h.fits.scanJsx_advances.moves hkind
  | reread h hadvance ih =>
    rcases h.orderly.reread_anew hadvance with hsame | hanew
    · rw [hsame] at hkind ⊢
      exact ih hkind
    · exact (h.reread hadvance).fits.moves hkind hanew.known.1

/-! ## Going on from a scanner -/

/-- The scanner went on from another one and kept what that had found. -/
structure Beyond (b s : Scanner) : Prop where
  findings : b.findings <+: s.findings
  start : b.here.offset ≤ s.start.offset
  /-- What was found since then stands behind it. -/
  later : ∀ finding ∈ s.findings, finding.start < b.here.offset → finding ∈ b.findings

theorem Beyond.here_le (h : Beyond b s) (hs : s.Fits text) : b.here.offset ≤ s.here.offset :=
  Nat.le_trans h.start hs.here.le

theorem beyond_scan (s : Scanner) : Beyond s s.scan := by
  obtain ⟨new, hfindings, hnew, -⟩ := scan_ordered s
  refine ⟨List.prefix_append _ _, s.leads_scan.le, fun finding hfinding hlt => ?_⟩
  rcases List.mem_append.1 (hfindings ▸ hfinding) with hold | hnew'
  · exact hold
  · exact absurd (hnew.between finding hnew').1 (Nat.not_le_of_lt hlt)

theorem beyond_scanJsx (s : Scanner) : Beyond s s.scanJsx := by
  have hfindings := scanJsx_findings s
  exact ⟨hfindings.symm ▸ List.prefix_rfl, Nat.le_of_eq (by rw [scanJsx_start]),
    fun _ hfinding _ => hfindings ▸ hfinding⟩

theorem Beyond.trans (h : Beyond b s) (hs : Beyond s t) (hfits : s.Fits text) : Beyond b t :=
  ⟨h.findings.trans hs.findings, Nat.le_trans (h.here_le hfits) hs.start,
    fun finding hfinding hlt =>
    h.later finding (hs.later finding hfinding (Nat.lt_of_lt_of_le hlt (h.here_le hfits))) hlt⟩

/-- A token behind the place where another scanner stands may be read anew: what was found before
that place stays. -/
theorem Beyond.reread (h : Beyond b s) (hb : b.Orderly) (hs : s.Orderly)
    (hadvance : Rereads advance) :
    Beyond b (advance s) := by
  rcases hs.reread_anew hadvance with hsame | hanew
  · exact hsame.symm ▸ h
  · have hstart := h.start
    rcases hanew.findings with ⟨hsame, -⟩ | ⟨new, hfindings, hnew⟩
    · exact ⟨hsame.symm ▸ h.findings, hanew.start.symm ▸ hstart, hsame.symm ▸ h.later⟩
    · refine ⟨?_, hanew.start.symm ▸ hstart, fun finding hfinding hlt => ?_⟩
      · have hkept := h.findings.filter (fun finding => decide (finding.start < s.start.offset))
        rw [hb.findings.filter_eq hstart] at hkept
        exact hfindings ▸ hkept.trans (List.prefix_append _ _)
      · rcases List.mem_append.1 (hfindings ▸ hfinding) with hold | hnew'
        · exact h.later finding (List.mem_filter.1 hold).1 hlt
        · have := (hnew.between finding hnew').1
          omega

theorem restore_save : s.restore b.save = b ↔ b.findings <+: s.findings := by
  rw [List.prefix_iff_eq_take]
  refine ⟨fun h => (congrArg Scanner.findings h).symm, fun htake => ?_⟩
  simp only [restore, save, ← htake]

end Scanner

end Untype
