-- The manners in which the grammar has tokens read. In each of them a token
-- is read again wherever its text stands, unless it goes on with what comes
-- next there.
import Untype.Proofs.Tokens.Reading

namespace Untype

open Untype.Text Cursor

variable {cs back back' rest : List Char} {c : Char} {flags : TokenFlags} {start : Cursor}
  {kind : TokenKind}

/-! ## No trivia in front -/

theorem triviaEnd_of_isSolid (h : IsSolid cs) (flags : TokenFlags) {offset : Nat}
    (hbang : offset = 0 → cs.take 2 ≠ ['#', '!']) :
    triviaEnd .between flags offset cs = ⟨⟨offset, cs⟩, flags, []⟩ := by
  cases cs with
  | nil => rfl
  | cons c rest =>
    obtain ⟨hblank, hslash⟩ := h
    simp only [isBlankOrLineBreak, Bool.or_eq_false_iff] at hblank
    have hhash : ¬(c == '#' && offset == 0 && rest.head? == some '!') := by
      simp only [Bool.and_eq_true, beq_iff_eq]
      rintro ⟨⟨rfl, hzero⟩, hhead⟩
      apply hbang hzero
      cases rest with
      | nil => cases hhead
      | cons d rest =>
        cases hhead
        rfl
    rw [triviaEnd, if_neg (by simp [hblank.2]), if_neg (by simp [hblank.1]), if_neg hhash]
    · rintro rest' rfl rfl
      exact (hslash rfl _ rfl).1 rfl
    · rintro rest' rfl rfl
      exact (hslash rfl _ rfl).2 rfl

theorem IsSolid.before {front : List Char} (h : IsSolid (c :: (front ++ back)))
    (hnext : c = '/' → front = [] → ∀ d ∈ back'.head?, d ≠ '/' ∧ d ≠ '*') :
    IsSolid (c :: (front ++ back')) := by
  refine ⟨h.1, fun hc d hd => ?_⟩
  cases front with
  | nil => exact hnext hc rfl d hd
  | cons e front => exact h.2 hc d hd

theorem triviaEnd_unterminated (mode : TriviaMode) (flags : TokenFlags) (offset : Nat)
    (cs : List Char) :
    (triviaEnd mode flags offset cs).flags.unterminated = flags.unterminated := by
  fun_induction triviaEnd mode flags offset cs
  case case3 flags' ih =>
    rw [ih]
    unfold flags'
    split <;> rfl
  case case7 flags' ih =>
    rw [ih]
    unfold flags'
    split <;> rfl
  all_goals first | rfl | assumption

/-! ## The next token -/

theorem readToken_slash (h : start.rest = '/' :: rest) :
    (readToken flags start).kind = .slash ∨ (readToken flags start).kind = .slashEquals := by
  rw [readToken_cons h]
  cases rest with
  | nil => exact .inl rfl
  | cons c rest =>
    cases hc : '=' == c with
    | true =>
      right
      simp [startsNumber, isDigit, punctuatorAt, TokenKind.punctuators, List.find?, List.isPrefixOf,
        hc]
    | false =>
      left
      simp [startsNumber, isDigit, punctuatorAt, TokenKind.punctuators, List.find?, List.isPrefixOf,
        hc]

theorem readToken_hash (h : start.rest = '#' :: rest) :
    readToken flags start = readPrivateName flags start := by
  rw [readToken_cons h]
  simp [startsNumber, isDigit, punctuatorAt, TokenKind.punctuators, List.find?, List.isPrefixOf]

/-- No whole token looks like the start of a first line that counts as a comment. -/
theorem not_bang_of_whole (hstart : start.rest = cs ++ back) (hcs : cs ≠ [])
    (hwhole : (readToken flags start).kind.isBroken cs = false) (back' : List Char) :
    (cs ++ back').take 2 ≠ ['#', '!'] := by
  intro hbang
  simp only [TokenKind.isBroken, Bool.or_eq_false_iff, beq_eq_false_iff_ne] at hwhole
  obtain ⟨c, cs, rfl⟩ := List.exists_cons_of_ne_nil hcs
  obtain rfl : c = '#' := (List.cons.inj hbang).1
  rw [readToken_hash hstart] at hwhole
  unfold readPrivateName at hwhole
  split at hwhole
  · rename_i hname
    cases cs with
    | nil => simp at hwhole
    | cons d cs =>
      obtain rfl : d = '!' := by simpa using hbang
      have hnot : (isNameStart '!' || '!' == '\\') = false := by decide
      rw [hstart, List.cons_append, List.drop_one, List.tail_cons, List.cons_append,
        List.head?_cons, Option.any_some, hnot] at hname
      cases hname
  · exact hwhole.1 rfl

/-- Only the end of the text is an empty token. -/
theorem readToken_nil (hstart : start.rest = [] ++ back)
    (hstop : (readToken flags start).stop.rest = back) :
    ∀ {c : Char}, (readToken flags start).kind.goesOn [] c := by
  intro c
  cases back with
  | nil =>
    rw [readToken, hstart]
    rfl
  | cons d back =>
    obtain ⟨front, hfront⟩ : ∃ front, back = front ++ (readToken flags start).stop.rest :=
      readToken_takes hstart
    have hlength := congrArg List.length hfront
    simp only [hstop, List.length_append, List.length_cons] at hlength
    omega

namespace Scanner

/-- The scanner has read its token from the start of it, and nothing is open before. -/
def Finds (s : Scanner) : Prop :=
  ∃ flags : TokenFlags, flags.unterminated = false ∧ s.here = (readToken flags s.start).stop ∧
    s.kind = (readToken flags s.start).kind ∧ s.flags = (readToken flags s.start).flags

/-- Another scanner has read a token of the same kind, with the text `cs` in front of `back`. -/
structure Repeats (s again : Scanner) (cs back : List Char) : Prop where
  kind : again.kind = s.kind
  start : again.start.rest = cs ++ back
  here : again.here.rest = back
  unterminated : again.flags.unterminated = s.flags.unterminated

variable {s t : Scanner} {cs back back' rest : List Char}

theorem scan_finds (s : Scanner) : s.scan.Finds :=
  ⟨(triviaEnd .between {} s.here.offset s.here.rest).flags, triviaEnd_unterminated _ _ _ _,
    rfl, rfl, rfl⟩

theorem scan_isSolid (s : Scanner) : IsSolid s.scan.start.rest := isSolid_triviaEnd _ _ _ _

theorem scan_solid (ht : t.here.rest = rest) (h : IsSolid rest) (hbang : rest.take 2 ≠ ['#', '!']) :
    t.scan.start.rest = rest := by
  change (triviaEnd .between {} t.here.offset t.here.rest).stop.rest = rest
  rw [ht, triviaEnd_of_isSolid h _ fun _ => hbang]

/-- The next token is read again before anything that it does not go on with. -/
theorem scan_local (hstart : s.scan.start.rest = cs ++ back) (hhere : s.scan.here.rest = back)
    (hwhole : s.scan.kind.isBroken cs = false) (ht : t.here.rest = cs ++ back')
    (hnext : ∀ d ∈ back'.head?,
      s.scan.flags.unterminated = false ∧ s.scan.kind.goesOn cs d = false) :
    s.scan.Repeats t.scan cs back' := by
  obtain ⟨flags, hopen, hend, hkind, hflags⟩ := scan_finds s
  obtain ⟨flags', hopen', hend', hkind', hflags'⟩ := scan_finds t
  have hsolid := scan_isSolid s
  rw [hend] at hhere
  rw [hkind] at hwhole hnext
  rw [hflags] at hnext
  have hstart' : t.scan.start.rest = cs ++ back' := by
    cases cs with
    | nil =>
      cases back' with
      | nil => exact scan_solid ht trivial (by decide)
      | cons d back' => cases (readToken_nil hstart hhere).symm.trans (hnext d rfl).2
    | cons c tail =>
      refine scan_solid ht ?_ (not_bang_of_whole hstart (List.cons_ne_nil _ _) hwhole back')
      rw [hstart] at hsolid
      refine hsolid.before ?_
      rintro rfl rfl d hd
      obtain ⟨-, hgoes⟩ := hnext d hd
      have hsign : goesOnAsSign ['/'] d = false := by
        rcases readToken_slash hstart with hkind | hkind <;> rwa [hkind] at hgoes
      simp only [goesOnAsSign, Bool.or_eq_false_iff] at hsign
      simpa using hsign.1.2
  have hrepeats := readToken_local (hopen'.trans hopen.symm) hstart hhere hwhole hstart' hnext
  exact ⟨by rw [hkind, hkind', hrepeats.kind], hstart', by rw [hend', hrepeats.stop],
    by rw [hflags, hflags', hrepeats.unterminated]⟩

end Scanner

/-! ## What a token starts with -/

theorem readName_kind (flags : TokenFlags) (start : Cursor) :
    (readName flags start).kind = .unknown ∨
      (readName flags start).kind.isIdentifierOrKeyword := by
  have hall : ∀ entry ∈ TokenKind.keywords, entry.2.isIdentifierOrKeyword := by decide
  unfold readName
  dsimp only
  split
  · exact .inl rfl
  · right
    split
    · rfl
    · cases hword : TokenKind.ofKeyword? (start.textTo (nameEnd start).stop) with
      | none => rfl
      | some kind =>
        obtain ⟨front, back, hsplit, -⟩ := List.lookup_eq_some_iff.1 hword
        exact hall (start.textTo (nameEnd start).stop, kind) (by simp [hsplit])

theorem TokenKind.other_of_isSign (h : kind.isSign) :
    kind.isIdentifierOrKeyword = false ∧ kind ≠ .stringLiteral ∧ kind.isOther = false := by
  have hall : ∀ entry ∈ punctuators ++ requestedPunctuators,
      entry.2.isIdentifierOrKeyword = false ∧ entry.2 ≠ .stringLiteral ∧
        entry.2.isOther = false := by
    decide +kernel
  obtain ⟨entry, hentry, heq⟩ := List.any_eq_true.1 h
  rw [← beq_iff_eq.1 heq]
  exact hall entry hentry

theorem TokenKind.not_word_of_isOther (h : kind.isOther) :
    kind.isIdentifierOrKeyword = false := by
  unfold isOther at h
  split at h
  case h_8 => cases h
  all_goals rfl

theorem isSign_of_punctuatorAt {length : Nat} (h : punctuatorAt cs = some (length, kind)) :
    kind.isSign := by
  obtain ⟨spelling, hmem, -⟩ := punctuatorAt_spells h
  exact List.any_eq_true.2 ⟨(spelling, kind), List.mem_append_left _ hmem, beq_self_eq_true kind⟩

theorem TokenKind.goesOn_of_word (h : kind.isIdentifierOrKeyword) (cs : List Char) (c : Char) :
    kind.goesOn cs c = goesOnAsName cs c := by
  simp [goesOn, h]

theorem TokenKind.isBroken_of_word (h : kind.isIdentifierOrKeyword) (cs : List Char) :
    kind.isBroken cs = false := by
  have hunknown : kind ≠ .unknown := by
    rintro rfl
    cases h
  have hprivate : kind ≠ .privateIdentifier := by
    rintro rfl
    cases h
  simp [isBroken, hunknown, hprivate]

section Kinds

variable {flags : TokenFlags} {start : Cursor}

/-- Punctuation stands there as it is spelled, and nothing is open in it. -/
theorem readToken_of_isSign (h : (readToken flags start).kind.isSign) :
    (readToken flags start).flags = flags ∧
      ∃ spelling, (spelling, (readToken flags start).kind) ∈ TokenKind.punctuators ∧
        spelling <+: start.rest := by
  obtain ⟨hword, hstring, hother⟩ := TokenKind.other_of_isSign h
  rcases readToken_cases flags start with
    ⟨c, rest, -, -, hread⟩ | ⟨length, kind, hfound, hread⟩ | hread | hkind
  · rw [hread] at hstring
    exact absurd (readString_eq c flags start).1 hstring
  · rw [hread]
    obtain ⟨spelling, hmem, hspells, -⟩ := punctuatorAt_spells hfound
    exact ⟨rfl, spelling, hmem, hspells⟩
  · rw [hread] at hword hother
    rcases readName_kind flags start with hkind | hkind
    · rw [hkind] at hother
      cases hother
    · cases hword.symm.trans hkind
  · cases hother.symm.trans hkind

theorem head?_of_stringLiteral (h : (readToken flags start).kind = .stringLiteral) :
    ∃ c rest, start.rest = c :: rest ∧ (c = '\x22' ∨ c = '\x27') ∧
      readToken flags start = readString c flags start := by
  rcases readToken_cases flags start with hstring | ⟨length, kind, hfound, hread⟩ | hread | hkind
  · exact hstring
  · rw [hread] at h
    exact absurd h (TokenKind.other_of_isSign (isSign_of_punctuatorAt hfound)).2.1
  · rw [hread] at h
    rcases readName_kind flags start with hkind | hkind <;> rw [h] at hkind <;> cases hkind
  · rw [h] at hkind
    cases hkind

theorem readToken_of_word (h : (readToken flags start).kind.isIdentifierOrKeyword) :
    readToken flags start = readName flags start := by
  rcases readToken_cases flags start with
    ⟨c, rest, -, -, hread⟩ | ⟨length, kind, hfound, hread⟩ | hread | hkind
  · rw [hread, (readString_eq c flags start).1] at h
    cases h
  · rw [hread] at h
    cases (TokenKind.other_of_isSign (isSign_of_punctuatorAt hfound)).1.symm.trans h
  · exact hread
  · cases (TokenKind.not_word_of_isOther hkind).symm.trans h

end Kinds

/-! ## Tokens that are read anew -/

/-- A regular expression without an end stops before a line break or at the end of the text. -/
theorem regularExpressionEnd_open (inClass : Bool) (offset : Nat) (cs : List Char) :
    (regularExpressionEnd inClass offset cs).terminated = false →
      ∀ c ∈ (regularExpressionEnd inClass offset cs).stop.rest.head?, isNamePart c = false := by
  have hbreak : ∀ c, isLineBreak c → isNamePart c = false := by
    intro c hc
    simp only [isLineBreak, Bool.or_eq_true, beq_iff_eq] at hc
    rcases hc with ((rfl | rfl) | rfl) | rfl <;> decide +kernel
  fun_induction regularExpressionEnd inClass offset cs
  case case1 | case2 => simp
  case case3 inClass offset c rest hc =>
    rintro - d ⟨rfl⟩
    exact hbreak c hc
  case case4 ih => exact ih
  case case5 inClass offset c rest _ hc =>
    rintro - d ⟨rfl⟩
    exact hbreak c hc
  case case6 => simp
  case case7 ih => exact ih

namespace Scanner

variable {s t : Scanner} {cs back back' : List Char}

/-- Punctuation that is known by its first character. -/
theorem scan_sign (h : s.scan.kind.isSign)
    (hc : ∀ entry ∈ TokenKind.punctuators, entry.2 = s.scan.kind → entry.1.head? = some c) :
    s.scan.flags.unterminated = false ∧ ∃ rest, s.scan.start.rest = c :: rest := by
  obtain ⟨flags, hopen, -, hkind, hflags⟩ := scan_finds s
  rw [hkind] at h hc
  obtain ⟨hsame, spelling, hmem, tail, htail⟩ := readToken_of_isSign h
  refine ⟨by rw [hflags, hsame, hopen], ?_⟩
  have hhead := hc _ hmem rfl
  cases spelling with
  | nil => cases hhead
  | cons d spelling =>
    cases hhead
    exact ⟨_, htail.symm⟩

theorem scan_slash (h : s.scan.kind = .slash ∨ s.scan.kind = .slashEquals) :
    s.scan.flags.unterminated = false ∧ ∃ rest, s.scan.start.rest = '/' :: rest := by
  rcases h with h | h <;> exact scan_sign (by rw [h]; decide) (by rw [h]; decide)

theorem rescanSlash_eq (h : s.kind = .slash ∨ s.kind = .slashEquals) :
    s.rescanSlash.start = s.start ∧ s.rescanSlash.kind = .regularExpressionLiteral ∧
      s.rescanSlash.here.rest = ((regularExpressionEnd false (s.start.offset + 1)
        (s.start.rest.drop 1)).stop.rest.dropWhile isNamePart) ∧
      s.rescanSlash.flags.unterminated = (s.flags.unterminated ||
        !(regularExpressionEnd false (s.start.offset + 1) (s.start.rest.drop 1)).terminated) := by
  unfold rescanSlash
  rw [if_pos (by simpa using h)]
  dsimp only
  generalize regularExpressionEnd false (s.start.offset + 1) (s.start.rest.drop 1) = body
  split <;> exact ⟨rfl, rfl, skipWhile_rest _ _ _, by simp_all [reread]⟩

theorem rescanSlash_local (hkind : s.scan.kind = .slash ∨ s.scan.kind = .slashEquals)
    (hstart : s.scan.start.rest = cs ++ back) (hhere : s.scan.rescanSlash.here.rest = back)
    (ht : t.here.rest = cs ++ back')
    (hnext : ∀ d ∈ back'.head?, s.scan.rescanSlash.flags.unterminated = false ∧
      s.scan.rescanSlash.kind.goesOn cs d = false) :
    s.scan.rescanSlash.Repeats t.scan.rescanSlash cs back' := by
  obtain ⟨hopen, rest, hrest⟩ := scan_slash hkind
  have hsolid := scan_isSolid s
  obtain ⟨-, hregular, hend, hflags⟩ := rescanSlash_eq hkind
  rw [hregular] at hnext
  rw [hrest, List.drop_succ_cons, List.drop_zero] at hend hflags
  obtain ⟨body, hbody, htaken⟩ := regularExpressionEnd_local false (s.scan.start.offset + 1) rest
  have hbreak := regularExpressionEnd_open false (s.scan.start.offset + 1) rest
  generalize regularExpressionEnd false (s.scan.start.offset + 1) rest = found at *
  obtain ⟨marks, hmarks, hpart⟩ : ∃ marks, found.stop.rest = marks ++ back ∧
      ∀ c ∈ marks.head?, isNamePart c := by
    rw [← hhere, hend]
    exact exists_dropWhile isNamePart found.stop.rest
  obtain rfl : cs = '/' :: (body ++ marks) := by
    apply List.append_cancel_right
    rw [← hstart, hrest, hbody, hmarks, List.cons_append, List.append_assoc]
  have hterminated : ∀ d ∈ (marks ++ back').head?, found.terminated := by
    intro d hd
    cases marks with
    | nil => simpa [hflags, hopen] using (hnext d hd).1
    | cons e marks =>
      cases hfound : found.terminated with
      | true => rfl
      | false =>
        have hnot := hbreak hfound e (by simp [hmarks])
        cases hnot.symm.trans (hpart e rfl)
  have hstart' : t.scan.start.rest = '/' :: (body ++ marks) ++ back' := by
    refine scan_solid ht ?_ (by simp)
    rw [hstart] at hsolid
    refine hsolid.before fun _ hnil d hd => ?_
    obtain ⟨rfl, rfl⟩ := List.append_eq_nil_iff.1 hnil
    exact absurd rfl (htaken.nonempty (hterminated d hd))
  have hkind' : t.scan.kind = .slash ∨ t.scan.kind = .slashEquals := by
    obtain ⟨flags', -, -, hread, -⟩ := scan_finds t
    rw [hread]
    exact readToken_slash hstart'
  obtain ⟨hopen', -⟩ := scan_slash hkind'
  obtain ⟨hsame, hregular', hend', hflags'⟩ := rescanSlash_eq hkind'
  rw [hstart', List.cons_append, List.drop_succ_cons, List.drop_zero, List.append_assoc]
    at hend' hflags'
  obtain ⟨hagain, hstop⟩ := htaken.repeats hterminated (t.scan.start.offset + 1)
  dsimp only [QuotedEnd.pair] at hagain hstop
  rw [hstop] at hend'
  rw [hagain] at hflags'
  rw [hmarks, hhere] at hend
  refine ⟨by rw [hregular, hregular'], by rw [hsame, hstart'], ?_,
    by rw [hflags, hflags', hopen, hopen']⟩
  rw [hend']
  exact dropWhile_local hend.symm fun d hd => (hnext d hd).2

theorem rescanTemplate_local (hkind : s.scan.kind = .closeBrace)
    (hstart : s.scan.start.rest = cs ++ back) (hhere : s.scan.rescanTemplate.here.rest = back)
    (ht : t.here.rest = cs ++ back')
    (hnext : ∀ d ∈ back'.head?, s.scan.rescanTemplate.flags.unterminated = false) :
    s.scan.rescanTemplate.Repeats t.scan.rescanTemplate cs back' := by
  have hread : ∀ s : Scanner, s.kind = .closeBrace →
      s.rescanTemplate = s.reread (readTemplate false s.flags s.start) :=
    fun s hs => if_pos (by simp [hs])
  have hbrace : ∀ s : Scanner, s.scan.kind = .closeBrace →
      s.scan.flags.unterminated = false ∧ ∃ rest, s.scan.start.rest = '\x7d' :: rest :=
    fun s hs => scan_sign (by rw [hs]; decide) (by rw [hs]; decide)
  obtain ⟨hopen, rest, hrest⟩ := hbrace s hkind
  rw [hread _ hkind] at hhere hnext ⊢
  obtain ⟨tail, rfl⟩ : ∃ tail, cs = '\x7d' :: tail := by
    obtain ⟨tail, htail, -⟩ := templateEnd_local (s.scan.start.offset + 1) rest
    have hstop : (readTemplate false s.scan.flags s.scan.start).stop.rest = back := hhere
    rw [(readTemplate_eq false s.scan.flags s.scan.start).2.1, hrest, List.drop_succ_cons,
      List.drop_zero] at hstop
    refine ⟨tail, ?_⟩
    rw [hstop] at htail
    rw [htail, hstart, ← List.cons_append] at hrest
    exact List.append_cancel_right hrest
  have hstart' : t.scan.start.rest = '\x7d' :: tail ++ back' := by
    refine scan_solid ht ⟨by decide, by simp⟩ (by simp)
  have hkind' : t.scan.kind = .closeBrace := by
    obtain ⟨flags', -, -, hread, -⟩ := scan_finds t
    rw [hread, readToken_cons hstart']
    simp [startsNumber, isDigit, punctuatorAt, TokenKind.punctuators, List.find?, List.isPrefixOf]
  rw [hread _ hkind']
  have hrepeats := readTemplate_local ((hbrace t hkind').1.trans hopen.symm) hstart hstart' false
    hhere hnext
  exact ⟨hrepeats.kind, hstart', hrepeats.stop, hrepeats.unterminated⟩

end Scanner

/-- What `>` is joined with: how many characters, and to which kind. -/
def joinGreater : List Char → Nat × TokenKind
  | '>' :: '>' :: '=' :: _ => (3, .greaterThanGreaterThanGreaterThanEquals)
  | '>' :: '>' :: _ => (2, .greaterThanGreaterThanGreaterThan)
  | '>' :: '=' :: _ => (2, .greaterThanGreaterThanEquals)
  | '>' :: _ => (1, .greaterThanGreaterThan)
  | '=' :: _ => (1, .greaterThanEquals)
  | _ => (0, .greaterThan)

/-- The spellings that start with `>`. -/
def greaterSigns : List (List Char × TokenKind) :=
  (TokenKind.punctuators ++ TokenKind.requestedPunctuators).filter fun (spelling, _) =>
    spelling.head? == some '>'

theorem joinGreater_spells (cs : List Char) : ∃ tail rest, cs = tail ++ rest ∧
    (joinGreater cs).1 = tail.length ∧ ('>' :: tail, (joinGreater cs).2) ∈ greaterSigns := by
  fun_cases joinGreater cs
  case case1 rest => exact ⟨['>', '>', '='], rest, rfl, rfl, by decide⟩
  case case2 rest _ => exact ⟨['>', '>'], rest, rfl, rfl, by decide⟩
  case case3 rest => exact ⟨['>', '='], rest, rfl, rfl, by decide⟩
  case case4 => exact ⟨['>'], _, rfl, rfl, by decide⟩
  case case5 rest => exact ⟨['='], rest, rfl, rfl, by decide⟩
  case case6 => exact ⟨[], cs, rfl, rfl, by decide⟩

theorem joinGreater_of_mem {tail : List Char} (h : ('>' :: tail, kind) ∈ greaterSigns)
    (hnext : ∀ d ∈ back.head?, goesOnAsSign ('>' :: tail) d = false) :
    joinGreater (tail ++ back) = (tail.length, kind) := by
  have hcases : (tail, kind) ∈ [([], .greaterThan), (['='], .greaterThanEquals),
    (['>'], .greaterThanGreaterThan), (['>', '>'], .greaterThanGreaterThanGreaterThan),
    (['>', '='], .greaterThanGreaterThanEquals),
    (['>', '>', '='], TokenKind.greaterThanGreaterThanGreaterThanEquals)] := by
    simpa [greaterSigns, TokenKind.punctuators, TokenKind.requestedPunctuators] using h
  have hequals : ∀ d ∈ back.head?, tail = [] ∨ tail = ['>'] ∨ tail = ['>', '>'] → d ≠ '=' := by
    rintro d hd htail rfl
    have hnot := hnext _ hd
    rcases htail with rfl | rfl | rfl <;> revert hnot <;> decide
  have hgreater : ∀ d ∈ back.head?, tail = [] ∨ tail = ['>'] → d ≠ '>' := by
    rintro d hd htail rfl
    have hnot := hnext _ hd
    rcases htail with rfl | rfl <;> revert hnot <;> decide
  simp only [List.mem_cons, Prod.mk.injEq, List.not_mem_nil, or_false] at hcases
  rcases hcases with ⟨rfl, rfl⟩ | ⟨rfl, rfl⟩ | ⟨rfl, rfl⟩ | ⟨rfl, rfl⟩ | ⟨rfl, rfl⟩ | ⟨rfl, rfl⟩
  · unfold joinGreater
    split <;> simp_all
  · rfl
  · unfold joinGreater
    split <;> simp_all
  · unfold joinGreater
    split <;> grind
  · rfl
  · rfl

/-- A name stops before a character that is no part of it. -/
theorem nameEndFrom_stops (fuel : Nat) {name : NameEnd} (h : name.stop.rest.length < fuel) :
    ∀ c ∈ (nameEndFrom fuel name).stop.rest.head?, isNamePart c = false := by
  induction fuel generalizing name with
  | zero => cases h
  | succ fuel ih =>
    rw [nameEndFrom]
    split
    · rename_i hrest
      simp [hrest]
    · rename_i c rest hrest
      have hskip : ∀ n, (name.stop.skip (n + 1)).rest.length < fuel := by
        intro n
        rw [hrest, List.length_cons] at h
        rw [skip_rest, hrest, List.length_drop, List.length_cons]
        omega
      split
      · exact ih (hskip 0)
      · rename_i hpart
        split
        · exact ih (hskip _)
        · rw [hrest]
          rintro d ⟨rfl⟩
          simpa using hpart

namespace Scanner

variable {s t : Scanner} {cs back back' : List Char}

theorem rescanGreater_eq (h : s.kind = .greaterThan) :
    s.rescanGreater.start = s.start ∧ s.rescanGreater.kind = (joinGreater s.here.rest).2 ∧
      s.rescanGreater.here.rest = s.here.rest.drop (joinGreater s.here.rest).1 ∧
      s.rescanGreater.flags = s.flags := by
  unfold rescanGreater
  dsimp only
  rw [if_pos (by simp [h])]
  split <;> simp_all [reread, joinGreater]

theorem rescanGreater_local (hkind : s.scan.kind = .greaterThan)
    (hstart : s.scan.start.rest = cs ++ back) (hhere : s.scan.rescanGreater.here.rest = back)
    (ht : t.here.rest = cs ++ back')
    (hnext : ∀ d ∈ back'.head?, s.scan.rescanGreater.kind.goesOn cs d = false) :
    s.scan.rescanGreater.Repeats t.scan.rescanGreater cs back' := by
  have hscan : ∀ s : Scanner, ∀ rest, s.scan.start.rest = '>' :: rest →
      s.scan.kind = .greaterThan ∧ s.scan.here.rest = rest ∧ s.scan.flags.unterminated = false := by
    intro s rest hrest
    obtain ⟨flags, hopen, hend, hread, hflags⟩ := scan_finds s
    have htoken : readToken flags s.scan.start =
        ⟨s.scan.start.skip 1, .greaterThan, flags, []⟩ := by
      rw [readToken_cons hrest]
      simp [startsNumber, isDigit, punctuatorAt, TokenKind.punctuators, List.find?, List.isPrefixOf]
    rw [htoken] at hend hread hflags
    exact ⟨hread, by simp [hend, hrest], by rw [hflags, hopen]⟩
  obtain ⟨-, rest, hrest⟩ : s.scan.flags.unterminated = false ∧
      ∃ rest, s.scan.start.rest = '>' :: rest :=
    scan_sign (by rw [hkind]; decide) (by rw [hkind]; decide)
  obtain ⟨-, hafter, hopen⟩ := hscan s rest hrest
  obtain ⟨-, hjoined, hend, hflags⟩ := rescanGreater_eq hkind
  rw [hafter] at hjoined hend
  obtain ⟨tail, rest', hsplit, hlength, hmem⟩ := joinGreater_spells rest
  rw [hlength, hsplit, List.drop_left, hhere] at hend
  subst hend
  obtain rfl : cs = '>' :: tail := by
    rw [hstart, hsplit, ← List.cons_append] at hrest
    exact List.append_cancel_right hrest
  have hstart' : t.scan.start.rest = '>' :: (tail ++ back') := by
    refine scan_solid ht ⟨by decide, by simp⟩ (by simp)
  obtain ⟨hkind', hafter', hopen'⟩ := hscan t _ hstart'
  obtain ⟨hsame, hjoined', hend', hflags'⟩ := rescanGreater_eq hkind'
  have hagain : joinGreater (tail ++ back') = (tail.length, (joinGreater rest).2) := by
    refine joinGreater_of_mem hmem fun d hd => ?_
    rw [← hnext d hd, hjoined]
    exact (goesOn_sign (List.mem_filter.1 hmem).1 _ d).1.symm
  rw [hafter', hagain] at hjoined' hend'
  refine ⟨by rw [hjoined', hjoined], by rw [hsame, hstart']; rfl, by rw [hend', List.drop_left], ?_⟩
  rw [hflags, hflags', hopen, hopen']

/-- A word is a name that stops before a character that is no part of it. -/
theorem scan_word (h : s.scan.kind.isIdentifierOrKeyword) :
    s.scan.flags.unterminated = false ∧
      ∀ c ∈ s.scan.here.rest.head?, isNamePart c = false := by
  obtain ⟨flags, hopen, hend, hread, hflags⟩ := scan_finds s
  rw [hread] at h
  have hname := readToken_of_word h
  rw [hname] at h hend hflags
  unfold readName at h hend hflags
  dsimp only at h hend hflags
  split at h
  · cases h
  · rename_i hmoves
    rw [if_neg hmoves] at hend hflags
    rw [hend, hflags]
    exact ⟨hopen, nameEndFrom_stops _ (Nat.lt_succ_self _)⟩

theorem rescanJsxName_eq (h : s.kind.isIdentifierOrKeyword) :
    s.rescanJsxName.start = s.start ∧ s.rescanJsxName.kind = .identifier ∧
      s.rescanJsxName.here.rest = s.here.rest.dropWhile (fun c => c == '-' || isNamePart c) ∧
      s.rescanJsxName.flags = s.flags := by
  unfold rescanJsxName
  rw [if_pos h]
  exact ⟨rfl, rfl, skipWhile_rest _ _ _, rfl⟩

theorem rescanJsxName_local (hkind : s.scan.kind.isIdentifierOrKeyword)
    (hstart : s.scan.start.rest = cs ++ back) (hhere : s.scan.rescanJsxName.here.rest = back)
    (ht : t.here.rest = cs ++ back')
    (hnext : ∀ d ∈ back'.head?, s.scan.rescanJsxName.kind.goesOn cs d = false ∧ d ≠ '-') :
    s.scan.rescanJsxName.Repeats t.scan.rescanJsxName cs back' := by
  obtain ⟨hopen, hstops⟩ := scan_word hkind
  obtain ⟨-, hname, hend, hflags⟩ := rescanJsxName_eq hkind
  rw [hname] at hnext
  obtain ⟨name, hword⟩ : ∃ name, s.scan.start.rest = name ++ s.scan.here.rest := by
    obtain ⟨flags, -, hread, -⟩ := scan_finds s
    obtain ⟨name, hword, -⟩ := (readToken_fits flags s.scan.start).stop
    exact ⟨name, by rw [hread, hword]⟩
  obtain ⟨marks, hmarks, hpart⟩ : ∃ marks, s.scan.here.rest = marks ++ back ∧
      ∀ c ∈ marks.head?, (c == '-' || isNamePart c) := by
    rw [← hhere, hend]
    exact exists_dropWhile _ s.scan.here.rest
  obtain rfl : cs = name ++ marks := by
    apply List.append_cancel_right
    rw [← hstart, hword, hmarks, List.append_assoc]
  have hrepeats : s.scan.Repeats t.scan name (marks ++ back') := by
    refine scan_local hword rfl (TokenKind.isBroken_of_word hkind name)
      (by rw [ht, List.append_assoc]) fun d hd => ⟨hopen, ?_⟩
    rw [TokenKind.goesOn_of_word hkind]
    cases marks with
    | nil =>
      rw [List.append_nil] at hnext
      exact (hnext d hd).1
    | cons e marks =>
      -- What the name goes on with here is a hyphen.
      cases hd
      have hnot := hstops d (by rw [hmarks]; rfl)
      obtain rfl : d = '-' := by simpa [hnot] using hpart d rfl
      simp [goesOnAsName, hnot]
  have hkind' : t.scan.kind.isIdentifierOrKeyword := by rw [hrepeats.kind, hkind]
  obtain ⟨hsame, hname', hend', hflags'⟩ := rescanJsxName_eq hkind'
  rw [hmarks, hhere] at hend
  rw [hrepeats.here] at hend'
  refine ⟨by rw [hname, hname'], by rw [hsame, hrepeats.start, List.append_assoc], ?_,
    by rw [hflags, hflags', hrepeats.unterminated]⟩
  rw [hend']
  refine dropWhile_local hend.symm fun d hd => ?_
  obtain ⟨hgoes, hhyphen⟩ := hnext d hd
  simp [(goesOnAsName_eq_false hgoes).1.1, hhyphen]

theorem rescanJsxValue_eq {quote : Char} (h : s.kind = .stringLiteral)
    (hrest : s.start.rest = quote :: rest) :
    s.rescanJsxValue.start = s.start ∧ s.rescanJsxValue.kind = .stringLiteral ∧
      s.rescanJsxValue.here = (attributeEnd quote (s.start.offset + 1) rest).stop ∧
      s.rescanJsxValue.flags.unterminated =
        !(attributeEnd quote (s.start.offset + 1) rest).terminated := by
  unfold rescanJsxValue
  rw [h, hrest]
  dsimp only
  generalize attributeEnd quote (s.start.offset + 1) rest = found
  split <;> exact ⟨rfl, rfl, rfl, by simp_all [reread]⟩

theorem rescanJsxValue_local (hkind : s.scan.kind = .stringLiteral)
    (hstart : s.scan.start.rest = cs ++ back) (hhere : s.scan.rescanJsxValue.here.rest = back)
    (ht : t.here.rest = cs ++ back')
    (hnext : ∀ d ∈ back'.head?, s.scan.rescanJsxValue.flags.unterminated = false) :
    s.scan.rescanJsxValue.Repeats t.scan.rescanJsxValue cs back' := by
  obtain ⟨quote, rest, hrest, hquote⟩ : ∃ quote rest, s.scan.start.rest = quote :: rest ∧
      (quote = '\x22' ∨ quote = '\x27') := by
    obtain ⟨flags, -, -, hread, -⟩ := scan_finds s
    obtain ⟨quote, rest, hrest, hquote, -⟩ := head?_of_stringLiteral (hread.symm.trans hkind)
    exact ⟨quote, rest, hrest, hquote⟩
  obtain ⟨-, hstring, hend, hflags⟩ := rescanJsxValue_eq hkind hrest
  obtain ⟨value, hvalue, htaken⟩ := attributeEnd_local quote (s.scan.start.offset + 1) rest
  rw [hend] at hhere
  generalize attributeEnd quote (s.scan.start.offset + 1) rest = found at *
  rw [hhere] at hvalue
  obtain rfl : cs = quote :: value := by
    rw [hstart, hvalue, ← List.cons_append] at hrest
    exact List.append_cancel_right hrest
  have hstart' : t.scan.start.rest = quote :: (value ++ back') := by
    refine scan_solid ht ?_ ?_
    · rcases hquote with rfl | rfl <;> exact ⟨by decide, by simp⟩
    · rcases hquote with rfl | rfl <;> simp
  have hkind' : t.scan.kind = .stringLiteral := by
    obtain ⟨flags', -, -, hread, -⟩ := scan_finds t
    rw [hread, readToken_cons hstart', if_pos (by simpa using hquote)]
    exact (readString_eq quote flags' t.scan.start).1
  obtain ⟨hsame, hstring', hend', hflags'⟩ := rescanJsxValue_eq hkind' hstart'
  have hterminated : ∀ d ∈ back'.head?, found.terminated := by
    intro d hd
    simpa [hflags] using hnext d hd
  obtain ⟨hagain, hstop⟩ := htaken.repeats hterminated (t.scan.start.offset + 1)
  exact ⟨by rw [hstring, hstring'], by rw [hsame, hstart']; rfl, by rw [hend']; exact hstop,
    by rw [hflags, hflags']; exact congrArg not hagain⟩

end Scanner

/-! ## Tokens among the children of an element -/

/-- What comes after the next token among the children of an element, and the kind of that
token. -/
def jsxEnd : List Char → List Char × TokenKind
  | [] => ([], .endOfFile)
  | '<' :: '/' :: rest => (rest, .lessThanSlash)
  | '<' :: rest => (rest, .lessThan)
  | '\x7b' :: rest => (rest, .openBrace)
  | cs => (cs.dropWhile fun c => c != '\x7b' && c != '<', .jsxText)

theorem jsxEnd_text (h : (c != '\x7b' && c != '<')) (cs : List Char) :
    jsxEnd (c :: cs) = ((c :: cs).dropWhile fun c => c != '\x7b' && c != '<', .jsxText) := by
  unfold jsxEnd
  split <;> simp_all

theorem jsxEnd_local (h : (jsxEnd (cs ++ back)).1 = back)
    (hnext : ∀ d ∈ back'.head?, (jsxEnd (cs ++ back)).2.goesOn cs d = false) :
    jsxEnd (cs ++ back') = (back', (jsxEnd (cs ++ back)).2) := by
  generalize hsplit : cs ++ back = text at h hnext ⊢
  revert h hnext hsplit
  fun_cases jsxEnd text
  all_goals rintro hsplit h hnext
  case case1 =>
    obtain ⟨rfl, rfl⟩ := List.append_eq_nil_iff.1 hsplit
    cases back' with
    | nil => rfl
    | cons d back' => cases hnext d rfl
  case case2 rest =>
    obtain rfl : rest = back := h
    obtain rfl : cs = ['<', '/'] := List.append_cancel_right hsplit
    rfl
  case case3 rest hslash =>
    obtain rfl : rest = back := h
    obtain rfl : cs = ['<'] := List.append_cancel_right hsplit
    cases back' with
    | nil => rfl
    | cons d back' =>
      have hd : d ≠ '/' := by
        rintro rfl
        cases hnext '/' rfl
      unfold jsxEnd
      split <;> simp_all
  case case4 rest =>
    obtain rfl : rest = back := h
    obtain rfl : cs = ['\x7b'] := List.append_cancel_right hsplit
    rfl
  case case5 hnil hclosing hopening hbrace =>
    obtain ⟨c, rest, hrest⟩ := List.exists_cons_of_ne_nil hnil
    have hc : (c != '\x7b' && c != '<') := by
      rw [Bool.and_eq_true, bne_iff_ne, bne_iff_ne]
      exact ⟨fun h => hbrace rest (by rw [hrest, h]), fun h => hopening rest (by rw [hrest, h])⟩
    have hgoes : ∀ d ∈ back'.head?, (d != '\x7b' && d != '<') = false := hnext
    have hall : (cs ++ back).dropWhile (fun c => c != '\x7b' && c != '<') = back := by
      rw [hsplit]
      exact h
    obtain ⟨tail, rfl⟩ : ∃ tail, cs = c :: tail := by
      cases cs with
      | nil =>
        -- The first character at least belongs to the text.
        rw [List.nil_append] at hsplit hall
        rw [hsplit, hrest, List.dropWhile_cons, if_pos hc] at hall
        have hlength := congrArg List.length hall
        have hle := (List.dropWhile_suffix (fun c => c != '\x7b' && c != '<') (l := rest)).length_le
        rw [List.length_cons] at hlength
        omega
      | cons d tail =>
        rw [hrest] at hsplit
        exact ⟨tail, by rw [(List.cons.inj hsplit).1]⟩
    rw [List.cons_append, jsxEnd_text hc, ← List.cons_append, dropWhile_local hall hgoes]

namespace Scanner

variable {s t : Scanner} {cs back back' : List Char}

theorem scanJsx_eq (s : Scanner) : s.scanJsx.start = s.here ∧ s.scanJsx.flags = {} ∧
    s.scanJsx.here.rest = (jsxEnd s.here.rest).1 ∧ s.scanJsx.kind = (jsxEnd s.here.rest).2 := by
  unfold scanJsx
  dsimp only
  split
  all_goals simp_all [jsxEnd, skipWhile_rest]

theorem scanJsx_local (hstart : s.scanJsx.start.rest = cs ++ back)
    (hhere : s.scanJsx.here.rest = back) (ht : t.here.rest = cs ++ back')
    (hnext : ∀ d ∈ back'.head?, s.scanJsx.kind.goesOn cs d = false) :
    s.scanJsx.Repeats t.scanJsx cs back' := by
  obtain ⟨hsame, hflags, hend, hkind⟩ := scanJsx_eq s
  obtain ⟨hsame', hflags', hend', hkind'⟩ := scanJsx_eq t
  rw [hsame] at hstart
  rw [hstart] at hend hkind
  rw [hkind] at hnext
  have hagain := jsxEnd_local (hend.symm.trans hhere) hnext
  rw [ht, hagain] at hend' hkind'
  exact ⟨by rw [hkind, hkind'], by rw [hsame', ht], hend', by rw [hflags, hflags']⟩

end Scanner

/-! ## Manners -/

/-- How the grammar has a token read. -/
inductive Manner where
  | plain
  /-- A slash starts a regular expression. -/
  | slash
  /-- A brace ends a substitution of a template. -/
  | template
  /-- `>` is joined with what follows. -/
  | greater
  /-- The token stands among the children of an element. -/
  | jsx
  /-- A name may have hyphens. -/
  | jsxName
  /-- A string is the value of an attribute. -/
  | jsxValue
deriving DecidableEq

namespace Manner

/-- The current token is read anew. -/
def rescan : Manner → Scanner → Scanner
  | plain | jsx => id
  | slash => Scanner.rescanSlash
  | template => Scanner.rescanTemplate
  | greater => Scanner.rescanGreater
  | jsxName => Scanner.rescanJsxName
  | jsxValue => Scanner.rescanJsxValue

/-- Tokens of this kind are read anew. -/
def applies : Manner → TokenKind → Bool
  | plain, _ | jsx, _ => false
  | slash, kind => kind == .slash || kind == .slashEquals
  | template, kind => kind == .closeBrace
  | greater, kind => kind == .greaterThan
  | jsxName, kind => kind.isIdentifierOrKeyword
  | jsxValue, kind => kind == .stringLiteral

/-- The next token. -/
def read (m : Manner) (s : Scanner) : Scanner :=
  if m = jsx then s.scanJsx else m.rescan s.scan

/-- A token that is read like this goes on with the character, if that comes next. -/
def goesOn (m : Manner) (kind : TokenKind) (cs : List Char) (c : Char) : Bool :=
  kind.goesOn cs c || (m == jsxName && c == '-')

variable {m : Manner} {s t : Scanner} {cs back back' : List Char}

theorem rescan_of_not_applies (h : m.applies s.kind = false) : m.rescan s = s := by
  cases m with
  | plain | jsx => rfl
  | slash | template | greater | jsxName => exact if_neg (by simpa [applies] using h)
  | jsxValue =>
    simp only [rescan, Scanner.rescanJsxValue]
    split
    · rename_i hkind _
      rw [hkind] at h
      cases h
    · rfl

theorem rescan_start (m : Manner) (s : Scanner) : (m.rescan s).start = s.start := by
  cases m with
  | plain | jsx => rfl
  | slash | template | greater | jsxName | jsxValue =>
    simp only [rescan, Scanner.rescanSlash, Scanner.rescanTemplate, Scanner.rescanGreater,
      Scanner.rescanJsxName, Scanner.rescanJsxValue]
    repeat' split
    all_goals rfl

/-- In whatever manner a token is read, it is read again before anything that it does not go on
with. -/
theorem read_local (hstart : (m.read s).start.rest = cs ++ back)
    (hhere : (m.read s).here.rest = back) (hwhole : (m.read s).kind.isBroken cs = false)
    (ht : t.here.rest = cs ++ back')
    (hnext : ∀ d ∈ back'.head?, (m.read s).flags.unterminated = false ∧
      m.goesOn (m.read s).kind cs d = false) :
    (m.read s).Repeats (m.read t) cs back' := by
  have hopen := fun d hd => (hnext d hd).1
  have hgoes : ∀ d ∈ back'.head?, (m.read s).kind.goesOn cs d = false ∧
      (m = jsxName → d ≠ '-') := by
    intro d hd
    have hd := (hnext d hd).2
    rw [goesOn, Bool.or_eq_false_iff] at hd
    exact ⟨hd.1, fun hm => by simpa [hm] using hd.2⟩
  by_cases hm : m = jsx
  · subst hm
    exact Scanner.scanJsx_local hstart hhere ht fun d hd => (hgoes d hd).1
  have hread : ∀ s, m.read s = m.rescan s.scan := fun s => if_neg hm
  rw [hread] at hstart hhere hwhole hopen hgoes ⊢
  rw [rescan_start] at hstart
  rw [hread]
  cases happlies : m.applies s.scan.kind with
  | false =>
    rw [rescan_of_not_applies happlies] at hhere hwhole hopen hgoes ⊢
    have hrepeats := Scanner.scan_local hstart hhere hwhole ht
      fun d hd => ⟨hopen d hd, (hgoes d hd).1⟩
    rw [rescan_of_not_applies (by rw [hrepeats.kind, happlies])]
    exact hrepeats
  | true =>
    cases m with
    | plain | jsx => cases happlies
    | slash =>
      exact Scanner.rescanSlash_local (by simpa [applies] using happlies) hstart hhere ht
        fun d hd => ⟨hopen d hd, (hgoes d hd).1⟩
    | template =>
      exact Scanner.rescanTemplate_local (by simpa [applies] using happlies) hstart hhere ht hopen
    | greater =>
      exact Scanner.rescanGreater_local (by simpa [applies] using happlies) hstart hhere ht
        fun d hd => (hgoes d hd).1
    | jsxName =>
      exact Scanner.rescanJsxName_local happlies hstart hhere ht
        fun d hd => ⟨(hgoes d hd).1, (hgoes d hd).2 rfl⟩
    | jsxValue =>
      exact Scanner.rescanJsxValue_local (by simpa [applies] using happlies) hstart hhere ht hopen

end Manner

end Untype
