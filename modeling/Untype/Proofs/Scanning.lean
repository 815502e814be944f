-- The scanner never leaves its text. Whatever sequence of readings brought
-- it where it stands, the token and the trivia in front of it are pieces of
-- the text that lie side by side.
import Untype.Proofs.Places

namespace Untype

open Untype.Text Cursor

variable {c : Char} {kind : TokenKind}

/-! ## Trivia -/

theorem leads_triviaEnd (mode : TriviaMode) (flags : TokenFlags) (offset : Nat) (cs : List Char) :
    Leads ⟨offset, cs⟩ (triviaEnd mode flags offset cs).stop := by
  fun_induction triviaEnd mode flags offset cs
  case case1 | case11 | case12 => exact .refl _
  case case2 ih => exact Leads.trans ⟨['*', '/'], rfl, rfl⟩ ih
  case case6 ih => exact Leads.trans ⟨['/', '/'], rfl, rfl⟩ ih
  case case7 ih => exact Leads.trans ⟨['/', '*'], rfl, rfl⟩ ih
  case case10 c rest _ _ _ _ hc ih =>
    -- The first line of a file may start with a number sign and an exclamation mark.
    obtain ⟨⟨rfl, -⟩, -⟩ : (c = '#' ∧ _ = 0) ∧ rest.head? = some '!' := by simpa using hc
    exact Leads.trans ⟨['#'], rfl, rfl⟩ ih
  all_goals exact (leads_cons _ _ _).trans ‹_›

/-- The characters do not start with trivia. -/
def IsSolid : List Char → Prop
  | [] => True
  | c :: rest => isBlankOrLineBreak c = false ∧ (c = '/' → ∀ d ∈ rest.head?, d ≠ '/' ∧ d ≠ '*')

theorem isSolid_triviaEnd (mode : TriviaMode) (flags : TokenFlags) (offset : Nat) (cs : List Char) :
    IsSolid (triviaEnd mode flags offset cs).stop.rest := by
  fun_induction triviaEnd mode flags offset cs
  case case1 | case12 => trivial
  case case11 flags offset c rest hline hblock hbreak hblank hbang =>
    refine ⟨by simp [isBlankOrLineBreak, hbreak, hblank], ?_⟩
    rintro rfl d hd
    cases rest with
    | nil => cases hd
    | cons e rest =>
      cases hd
      exact ⟨fun h => hline rest rfl (by rw [h]), fun h => hblock rest rfl (by rw [h])⟩
  all_goals assumption

/-! ## Findings in order -/

/-- The findings begin one after another, none before `low` and none from `high` on. -/
structure Ordered (low high : Nat) (findings : List Finding) : Prop where
  increasing : findings.Pairwise (·.start < ·.start)
  between : ∀ finding ∈ findings, low ≤ finding.start ∧ finding.start < high

namespace Ordered

variable {low low' mid high high' : Nat} {findings others : List Finding} {finding : Finding}

theorem nil : Ordered low high [] := ⟨.nil, by simp⟩

theorem single (hlow : low ≤ finding.start) (hhigh : finding.start < high) :
    Ordered low high [finding] :=
  ⟨List.pairwise_singleton _ _, by simpa using ⟨hlow, hhigh⟩⟩

theorem widen (h : Ordered low high findings) (hlow : low' ≤ low) (hhigh : high ≤ high') :
    Ordered low' high' findings := by
  refine ⟨h.increasing, fun finding hfinding => ?_⟩
  have hbetween := h.between finding hfinding
  omega

theorem append (h : Ordered low mid findings) (hothers : Ordered mid high others)
    (hlow : low ≤ mid) (hhigh : mid ≤ high) : Ordered low high (findings ++ others) := by
  have hfront := h.widen (Nat.le_refl low) hhigh
  have hback := hothers.widen hlow (Nat.le_refl high)
  refine ⟨List.pairwise_append.2 ⟨h.increasing, hothers.increasing, ?_⟩, ?_⟩
  · intro finding hfinding other hother
    exact Nat.lt_of_lt_of_le (h.between finding hfinding).2 (hothers.between other hother).1
  · intro finding hfinding
    rcases List.mem_append.1 hfinding with hfinding | hfinding
    · exact hfront.between finding hfinding
    · exact hback.between finding hfinding

theorem before (h : Ordered low high findings) (stop : Nat) :
    Ordered low stop (findings.filter (·.start < stop)) := by
  refine ⟨h.increasing.filter _, fun finding hfinding => ?_⟩
  obtain ⟨hmem, hstop⟩ := List.mem_filter.1 hfinding
  exact ⟨(h.between finding hmem).1, by simpa using hstop⟩

theorem filter_eq (h : Ordered low high findings) (hhigh : high ≤ high') :
    findings.filter (·.start < high') = findings := by
  refine List.filter_eq_self.2 fun finding hfinding => ?_
  have hbetween := h.between finding hfinding
  simp only [decide_eq_true_eq]
  omega

end Ordered

/-! ## Tokens -/

/-- The tokens that the grammar may ask to read anew from their first character, which has one
byte. -/
def TokenKind.opensAnew : TokenKind → Bool
  | .closeBrace | .slash | .slashEquals | .stringLiteral => true
  | _ => false

/-- The signs that may be read anew as the start of something longer, which may have a fault. -/
def TokenKind.isReplaced (kind : TokenKind) : Bool := kind.opensAnew && kind != .stringLiteral

/-- The reading stays in the text that is left at `start`. The end of the text is found only
there, and a token is not empty. What is found in it is found in order and inside it, and a sign
that may be read anew has no faults yet. -/
structure Reading.Fits (start : Cursor) (token : Reading) : Prop where
  stop : start.Leads token.stop
  opens : token.kind.opensAnew → ∃ c rest, start.rest = c :: rest ∧ c.utf8Size = 1
  ends : token.kind = .endOfFile → token.stop.rest = []
  moves : token.kind ≠ .endOfFile → start.offset < token.stop.offset
  findings : Ordered start.offset token.stop.offset token.findings
  plain : token.kind.isReplaced → token.findings = []

theorem readUnknown_fits (flags : TokenFlags) (offset : Nat) (c : Char) (rest : List Char) :
    (readUnknown flags ⟨offset, c :: rest⟩).Fits ⟨offset, c :: rest⟩ :=
  have hmoves := lt_skip Nat.one_pos offset c rest
  ⟨leads_skip 1 _, nofun, nofun, fun _ => hmoves, .single (Nat.le_refl offset) hmoves, nofun⟩

theorem readString_fits {quote : Char} (hquote : quote.utf8Size = 1) (flags : TokenFlags)
    (offset : Nat) (rest : List Char) :
    (readString quote flags ⟨offset, quote :: rest⟩).Fits ⟨offset, quote :: rest⟩ := by
  have hrest := leads_stringEnd hquote (offset + 1) rest
  have hstop := (leads_ascii offset hquote).trans hrest
  unfold readString
  dsimp only [List.drop_one, List.tail_cons]
  split
  · exact ⟨hstop, fun _ => ⟨_, _, rfl, hquote⟩, nofun, fun _ => hrest.le, .nil, fun _ => rfl⟩
  · exact ⟨hstop, fun _ => ⟨_, _, rfl, hquote⟩, nofun, fun _ => hrest.le,
      .single (Nat.le_refl offset) hrest.le, nofun⟩

theorem readTemplate_fits (opensTemplate : Bool) (flags : TokenFlags) (hc : c.utf8Size = 1)
    (offset : Nat) (rest : List Char) :
    (readTemplate opensTemplate flags ⟨offset, c :: rest⟩).Fits ⟨offset, c :: rest⟩ := by
  have hrest := leads_templateEnd (offset + 1) rest
  have hstop := (leads_ascii offset hc).trans hrest
  have hlast : Ordered offset (templateEnd (offset + 1) rest).1.offset [⟨offset,
      (templateEnd (offset + 1) rest).1.offset - offset, .unterminatedTemplate⟩] :=
    .single (Nat.le_refl offset) hrest.le
  unfold readTemplate
  dsimp only [List.drop_one, List.tail_cons]
  split
  all_goals
    refine ⟨hstop, ?_, ?_, fun _ => hrest.le, by first | exact .nil | exact hlast, ?_⟩ <;>
      cases opensTemplate <;> nofun

theorem number_fits {start stop : Cursor} {findings : List Finding} (hstop : start.Leads stop)
    (hmoves : start.offset < stop.offset) (hfindings : Ordered start.offset stop.offset findings)
    (flags : TokenFlags) :
    Reading.Fits start (if stop.rest.head? == some 'n' then
      ⟨stop.skip 1, .bigIntLiteral, flags, findings⟩
      else ⟨stop, .numericLiteral, flags, findings⟩) := by
  have hskip := leads_skip 1 stop
  split
  · exact ⟨hstop.trans hskip, nofun, nofun, fun _ => Nat.lt_of_lt_of_le hmoves hskip.le,
      hfindings.widen (Nat.le_refl _) hskip.le, nofun⟩
  · exact ⟨hstop, nofun, nofun, fun _ => hmoves, hfindings, nofun⟩

theorem readNumber_fits (flags : TokenFlags) (offset : Nat) {rest : List Char}
    (hc : isDigit c ∨ c = '.') :
    (readNumber flags ⟨offset, c :: rest⟩).Fits ⟨offset, c :: rest⟩ := by
  have hskip := lt_skip Nat.two_pos offset c rest
  unfold readNumber
  dsimp only
  split
  · rename_i isValid flags' hbased
    have hdigits := leads_skipDigits isValid ((⟨offset, c :: rest⟩ : Cursor).skip 2)
    have hmoves := Nat.lt_of_lt_of_le hskip hdigits.le
    refine number_fits ((leads_skip 2 _).trans hdigits) hmoves ?_ _
    split
    · exact .single (Nat.le_refl offset) hmoves
    · exact .nil
  · have hmoves : offset < (⟨offset, c :: rest⟩ : Cursor).skipDecimal.offset := lt_skipDecimal hc
    exact number_fits (leads_skipDecimal _) hmoves .nil _

/-- Bad escapes are found where they start, one after another. -/
theorem nameEndFrom_ordered {low : Nat} (fuel : Nat) (name : NameEnd)
    (hlow : low ≤ name.stop.offset) (h : Ordered low name.stop.offset (escapeFindings name)) :
    Ordered low (nameEndFrom fuel name).stop.offset (escapeFindings (nameEndFrom fuel name)) := by
  fun_induction nameEndFrom fuel name with
  | case1 | case2 | case5 => exact h
  | case3 fuel name c rest _ _ ih =>
    have hskip := (leads_skip 1 name.stop).le
    exact ih (by dsimp only; omega) (h.widen (Nat.le_refl low) hskip)
  | case4 fuel name c rest hrest _ _ extent good _ stop badEscapes ih =>
    have hskip : name.stop.offset < stop.offset := by
      have hlt := lt_skip (Nat.succ_pos (extent + 1)) name.stop.offset c rest
      rwa [← hrest] at hlt
    refine ih (by dsimp only; omega) ?_
    have hfront := h.widen (Nat.le_refl low) (Nat.le_of_lt hskip)
    cases good with
    | true => exact hfront
    | false =>
      have hbad : badEscapes = name.badEscapes ++ [(name.stop.offset, stop.offset)] := rfl
      rw [hbad, escapeFindings, List.map_append]
      exact h.append (.single (Nat.le_refl _) hskip) hlow (Nat.le_of_lt hskip)

theorem nameEnd_ordered (start : Cursor) :
    Ordered start.offset (nameEnd start).stop.offset (escapeFindings (nameEnd start)) :=
  nameEndFrom_ordered _ ⟨start, false, []⟩ (Nat.le_refl _) .nil

theorem ofKeyword?_plain {word : String} (h : TokenKind.ofKeyword? word = some kind) :
    kind.opensAnew = false ∧ kind ≠ .endOfFile := by
  have hall : ∀ entry ∈ TokenKind.keywords,
      entry.2.opensAnew = false ∧ entry.2 ≠ .endOfFile := by decide
  obtain ⟨front, back, hsplit, -⟩ := List.lookup_eq_some_iff.1 h
  exact hall (word, kind) (by simp [hsplit])

theorem readName_fits (flags : TokenFlags) (offset : Nat) (c : Char) (rest : List Char) :
    (readName flags ⟨offset, c :: rest⟩).Fits ⟨offset, c :: rest⟩ := by
  have hunknown := readUnknown_fits flags offset c rest
  generalize (⟨offset, c :: rest⟩ : Cursor) = start at hunknown ⊢
  unfold readName
  dsimp only
  split
  · exact hunknown
  · rename_i hmoves
    have hkind : ∀ kind, kind = (if (nameEnd start).hasEscape then TokenKind.identifier
        else (TokenKind.ofKeyword? (start.textTo (nameEnd start).stop)).getD .identifier) →
        kind.opensAnew = false ∧ kind ≠ .endOfFile := by
      rintro kind rfl
      split
      · exact ⟨rfl, nofun⟩
      · cases hword : TokenKind.ofKeyword? (start.textTo (nameEnd start).stop) with
        | none => exact ⟨rfl, nofun⟩
        | some kind => exact ofKeyword?_plain hword
    obtain ⟨hopens, hends⟩ := hkind _ rfl
    refine ⟨leads_nameEnd start, by simp [hopens], fun h => absurd h hends, fun _ => ?_,
      nameEnd_ordered start, by simp [TokenKind.isReplaced, hopens]⟩
    have hle := (leads_nameEnd start).le
    have hne : (nameEnd start).stop.offset ≠ start.offset := by simpa using hmoves
    dsimp only
    omega

theorem readPrivateName_fits (flags : TokenFlags) (offset : Nat) (c : Char) (rest : List Char) :
    (readPrivateName flags ⟨offset, c :: rest⟩).Fits ⟨offset, c :: rest⟩ := by
  unfold readPrivateName
  split
  · exact ⟨(leads_skip 1 _).trans (leads_nameEnd _), nofun, nofun, fun _ =>
      Nat.lt_of_lt_of_le (lt_skip Nat.one_pos offset c rest) (leads_nameEnd _).le,
      (nameEnd_ordered _).widen (leads_skip 1 _).le (Nat.le_refl _), nofun⟩
  · exact readUnknown_fits flags offset c rest

/-- Punctuation starts with a character of one byte, and does not end the text. -/
theorem punctuatorAt_plain {cs : List Char} {length : Nat}
    (h : punctuatorAt cs = some (length, kind)) :
    (∃ c rest, cs = c :: rest ∧ c.utf8Size = 1) ∧ kind ≠ .endOfFile ∧ 0 < length := by
  have hall : ∀ entry ∈ TokenKind.punctuators,
      (entry.1.head?.any fun c => c.utf8Size == 1) ∧ entry.2 ≠ .endOfFile := by decide
  unfold punctuatorAt at h
  split at h
  · split at h <;> cases h <;> exact ⟨⟨_, _, rfl, rfl⟩, nofun, by decide⟩
  · split at h
    · rename_i spelling kind' hfound
      cases h
      obtain ⟨hhead, hends⟩ := hall _ (List.mem_of_find?_eq_some hfound)
      have hprefix := List.find?_some hfound
      cases spelling with
      | nil => simp at hhead
      | cons c spelling =>
        obtain ⟨rest, rfl⟩ := List.isPrefixOf_iff_prefix.1 hprefix
        exact ⟨⟨c, spelling ++ rest, rfl, by simpa using hhead⟩, hends, by simp⟩
    · cases h

theorem readToken_fits (flags : TokenFlags) (start : Cursor) :
    (readToken flags start).Fits start := by
  obtain ⟨offset, cs⟩ := start
  cases cs with
  | nil => exact ⟨.refl _, nofun, fun _ => rfl, fun h => absurd rfl h, .nil, nofun⟩
  | cons c rest =>
    unfold readToken
    dsimp only
    split
    · rename_i hquote
      refine readString_fits ?_ flags offset rest
      rcases (by simpa using hquote : c = '\x22' ∨ c = '\x27') with rfl | rfl <;> rfl
    · split
      · rename_i hquote
        refine readTemplate_fits true flags ?_ offset rest
        obtain rfl : c = '\x60' := by simpa using hquote
        rfl
      · split
        · rename_i hdigit
          refine readNumber_fits flags offset ?_
          rcases (by simpa using hdigit : isDigit c ∨ c = '.' ∧ _) with hc | ⟨hc, -⟩
          · exact .inl hc
          · exact .inr hc
        · split
          · rename_i length kind hfound
            obtain ⟨hascii, hends, hlength⟩ := punctuatorAt_plain hfound
            exact ⟨leads_skip length _, fun _ => hascii, fun h => absurd h hends,
              fun _ => lt_skip hlength offset c rest, .nil, fun _ => rfl⟩
          · split
            · exact readPrivateName_fits flags offset c rest
            · split
              · exact readName_fits flags offset c rest
              · exact readUnknown_fits flags offset c rest

/-! ## Scanners -/

namespace Scanner

/-- The trivia and the token lie side by side in the text, and the token is not empty. -/
structure Fits (text : String) (s : Scanner) : Prop where
  full : (Cursor.ofText text).Leads s.full
  start : s.full.Leads s.start
  here : s.start.Leads s.here
  opens : s.kind.opensAnew → ∃ c rest, s.start.rest = c :: rest ∧ c.utf8Size = 1
  ends : s.kind = .endOfFile → s.here.rest = []
  moves : s.kind ≠ .endOfFile → s.kind ≠ .unknown → s.start.offset < s.here.offset

/-- What a sequence of readings can come to. The first of them finds the first token. -/
inductive Reached (text : String) : Scanner → Prop where
  | start : Reached text (Scanner.ofText text).scan
  | scan {s : Scanner} : Reached text s → Reached text s.scan
  | scanJsx {s : Scanner} : Reached text s → Reached text s.scanJsx
  | rescanSlash {s : Scanner} : Reached text s → Reached text s.rescanSlash
  | rescanTemplate {s : Scanner} : Reached text s → Reached text s.rescanTemplate
  | rescanGreater {s : Scanner} : Reached text s → Reached text s.rescanGreater
  | rescanJsxName {s : Scanner} : Reached text s → Reached text s.rescanJsxName
  | rescanJsxValue {s : Scanner} : Reached text s → Reached text s.rescanJsxValue

/-- Another reading of the current token. -/
inductive Rereads : (Scanner → Scanner) → Prop where
  | slash : Rereads rescanSlash
  | template : Rereads rescanTemplate
  | greater : Rereads rescanGreater
  | jsxName : Rereads rescanJsxName
  | jsxValue : Rereads rescanJsxValue

variable {text : String} {s : Scanner} {advance : Scanner → Scanner}

theorem Fits.ofText (text : String) : (Scanner.ofText text).Fits text :=
  ⟨.refl _, .refl _, .refl _, nofun, nofun, fun _ h => absurd rfl h⟩

theorem leads_scan (s : Scanner) : s.here.Leads s.scan.start := leads_triviaEnd .between {} _ _

theorem Fits.toHere (h : s.Fits text) : (Cursor.ofText text).Leads s.here :=
  (h.full.trans h.start).trans h.here

theorem Fits.scan (h : s.Fits text) : s.scan.Fits text := by
  have htoken := readToken_fits (triviaEnd .between {} s.here.offset s.here.rest).flags
    (triviaEnd .between {} s.here.offset s.here.rest).stop
  exact ⟨h.toHere, s.leads_scan, htoken.stop, htoken.opens, htoken.ends,
    fun hend _ => htoken.moves hend⟩

theorem Fits.reread (h : s.Fits text) {token : Reading} (hstop : s.start.Leads token.stop)
    (hmoves : s.start.offset < token.stop.offset) (hopens : token.kind.opensAnew = false)
    (hends : token.kind ≠ .endOfFile) : (s.reread token).Fits text :=
  ⟨h.full, h.start, hstop, by simp [Scanner.reread, hopens], fun hend => absurd hend hends,
    fun _ _ => hmoves⟩

theorem Fits.rescanSlash (h : s.Fits text) : s.rescanSlash.Fits text := by
  unfold Scanner.rescanSlash
  split
  · rename_i hkind
    obtain ⟨c, rest, hrest, hc⟩ := h.opens (by
      rcases (by simpa using hkind : s.kind = .slash ∨ s.kind = .slashEquals) with hk | hk <;>
        simp [hk, TokenKind.opensAnew])
    have hfirst : s.start.Leads ⟨s.start.offset + 1, rest⟩ := ⟨[c], by simp [hrest], by simp [hc]⟩
    have hbody := (leads_regularExpressionEnd false (s.start.offset + 1) rest).trans
      (leads_skipWhile isNamePart _ _)
    have hstop := hfirst.trans hbody
    dsimp only
    rw [hrest, List.drop_one, List.tail_cons]
    split <;> exact h.reread hstop hbody.le rfl nofun
  · exact h

theorem Fits.rescanTemplate (h : s.Fits text) : s.rescanTemplate.Fits text := by
  unfold Scanner.rescanTemplate
  split
  · rename_i hkind
    obtain ⟨c, rest, hrest, hc⟩ := h.opens (by
      simp [(by simpa using hkind : s.kind = .closeBrace), TokenKind.opensAnew])
    have htoken := readTemplate_fits false s.flags hc s.start.offset rest
    rw [← hrest] at htoken
    exact ⟨h.full, h.start, htoken.stop, htoken.opens, htoken.ends, fun hend _ => htoken.moves hend⟩
  · exact h

theorem Fits.rescanGreater (h : s.Fits text) : s.rescanGreater.Fits text := by
  unfold Scanner.rescanGreater
  dsimp only
  split
  · rename_i hkind
    have hkind : s.kind = .greaterThan := by simpa using hkind
    have hmoves : ∀ n, s.start.offset < (s.here.skip n).offset := fun n =>
      Nat.lt_of_lt_of_le (h.moves (by simp [hkind]) (by simp [hkind])) (leads_skip n _).le
    split
    all_goals first
      | exact h
      | exact h.reread (h.here.trans (leads_skip _ _)) (hmoves _) rfl nofun
  · exact h

theorem Fits.scanJsx (h : s.Fits text) : s.scanJsx.Fits text := by
  have hskip : ∀ n c rest, 0 < n → s.here.rest = c :: rest →
      s.here.offset < (s.here.skip n).offset := by
    intro n c rest hn hrest
    have hlt := lt_skip hn s.here.offset c rest
    rwa [← hrest] at hlt
  unfold Scanner.scanJsx
  dsimp only
  split
  · rename_i hrest
    exact ⟨h.toHere, .refl _, .refl _, nofun, fun _ => hrest, fun h => absurd rfl h⟩
  iterate 3
    rename_i hrest
    exact ⟨h.toHere, .refl _, leads_skip _ _, nofun, nofun,
      fun _ _ => hskip _ _ _ (by decide) hrest⟩
  · rename_i cs hnil hclosing hopening hbrace
    refine ⟨h.toHere, .refl _, leads_skipWhile _ _ _, nofun, nofun, fun _ _ => ?_⟩
    cases hrest : s.here.rest with
    | nil => exact absurd hrest hnil
    | cons c rest =>
      refine lt_skipWhile ?_ _ _
      have hbrace : c ≠ '\x7b' := by
        rintro rfl
        exact hbrace rest hrest
      have hopening : c ≠ '<' := by
        rintro rfl
        exact hopening rest hrest
      simp [hbrace, hopening]

theorem scanJsx_full (s : Scanner) : s.scanJsx.full = s.here := by
  unfold Scanner.scanJsx
  dsimp only
  split <;> rfl

theorem scanJsx_start (s : Scanner) : s.scanJsx.start = s.here := by
  unfold Scanner.scanJsx
  dsimp only
  split <;> rfl

theorem Fits.rescanJsxName (h : s.Fits text) : s.rescanJsxName.Fits text := by
  unfold Scanner.rescanJsxName
  split
  · rename_i hkind
    have hmoves := h.moves (fun hend => absurd hkind (by rw [hend]; decide))
      fun hunknown => absurd hkind (by rw [hunknown]; decide)
    exact h.reread (h.here.trans (leads_skipWhile _ _ _))
      (Nat.lt_of_lt_of_le hmoves (leads_skipWhile _ _ _).le) rfl nofun
  · exact h

theorem Fits.rescanJsxValue (h : s.Fits text) : s.rescanJsxValue.Fits text := by
  unfold Scanner.rescanJsxValue
  split
  · rename_i quote rest hkind hrest
    obtain ⟨c, rest', hrest', hc⟩ := h.opens (by simp [hkind, TokenKind.opensAnew])
    obtain ⟨rfl, rfl⟩ : quote = c ∧ rest = rest' := by simpa [hrest] using hrest'
    have hfirst : s.start.Leads ⟨s.start.offset + 1, rest⟩ :=
      ⟨[quote], by simp [hrest], by simp [hc]⟩
    have hvalue := leads_attributeEnd quote (s.start.offset + 1) rest
    have hstop := hfirst.trans hvalue
    have hopens : ∃ c rest, s.start.rest = c :: rest ∧ c.utf8Size = 1 := ⟨_, _, hrest, hc⟩
    dsimp only
    split <;> exact ⟨h.full, h.start, hstop, fun _ => hopens, nofun, fun _ _ => hvalue.le⟩
  · exact h

/-! ## A token that is read again -/

theorem rescanJsxValue_kind (h : s.kind = .stringLiteral) :
    s.rescanJsxValue.kind = .stringLiteral := by
  unfold Scanner.rescanJsxValue
  split
  · dsimp only
    split <;> rfl
  · exact h

theorem Rereads.fits (hadvance : Rereads advance) (h : s.Fits text) : (advance s).Fits text := by
  cases hadvance with
  | slash => exact h.rescanSlash
  | template => exact h.rescanTemplate
  | greater => exact h.rescanGreater
  | jsxName => exact h.rescanJsxName
  | jsxValue => exact h.rescanJsxValue

theorem Rereads.place (h : Rereads advance) (s : Scanner) :
    (advance s).full = s.full ∧ (advance s).start = s.start := by
  cases h <;> simp only [rescanSlash, rescanTemplate, rescanGreater, rescanJsxName,
    rescanJsxValue] <;> repeat' split
  all_goals exact ⟨rfl, rfl⟩

theorem Reached.reread (h : Reached text s) (hadvance : Rereads advance) :
    Reached text (advance s) := by
  cases hadvance with
  | slash => exact h.rescanSlash
  | template => exact h.rescanTemplate
  | greater => exact h.rescanGreater
  | jsxName => exact h.rescanJsxName
  | jsxValue => exact h.rescanJsxValue

/-- What holds of the first token, and goes on to the next one and to other readings, holds
wherever readings come to. -/
theorem Reached.induct {motive : ∀ s, Reached text s → Prop} (start : motive _ .start)
    (scan : ∀ {s} (h : Reached text s), motive s h → motive s.scan h.scan)
    (scanJsx : ∀ {s} (h : Reached text s), motive s h → motive s.scanJsx h.scanJsx)
    (reread : ∀ {s advance} (h : Reached text s) (hadvance : Rereads advance), motive s h →
      motive (advance s) (h.reread hadvance))
    (h : Reached text s) : motive s h := by
  induction h with
  | start => exact start
  | scan h ih => exact scan h ih
  | scanJsx h ih => exact scanJsx h ih
  | rescanSlash h ih => exact reread h .slash ih
  | rescanTemplate h ih => exact reread h .template ih
  | rescanGreater h ih => exact reread h .greater ih
  | rescanJsxName h ih => exact reread h .jsxName ih
  | rescanJsxValue h ih => exact reread h .jsxValue ih

theorem Reached.fits (h : Reached text s) : s.Fits text := by
  induction h using Reached.induct with
  | start => exact (Fits.ofText text).scan
  | scan _ ih => exact ih.scan
  | scanJsx _ ih => exact ih.scanJsx
  | reread _ hadvance ih => exact hadvance.fits ih

end Scanner

end Untype
