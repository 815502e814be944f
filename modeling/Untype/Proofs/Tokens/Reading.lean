-- A token is read again wherever its text stands, unless it goes on with the
-- character that comes next there.
import Untype.Proofs.Tokens.Pieces

namespace Untype

open Untype.Text Cursor

variable {kind : TokenKind} {spelling cs back rest : List Char} {c : Char} {flags : TokenFlags}
  {start : Cursor}

/-! ## What tokens go on with -/

/-- The text of a name goes on with the character. -/
def goesOnAsName (cs : List Char) (c : Char) : Bool :=
  isNamePart c || c == '\\' || (cs.contains '\\' && (c == '\x7b' || c == '\x7d'))

/-- The text of punctuation goes on with the character: to other punctuation, to a comment, or
to a number. -/
def goesOnAsSign (cs : List Char) (c : Char) : Bool :=
  (TokenKind.punctuators ++ TokenKind.requestedPunctuators).any
      (fun (spelling, _) => (cs ++ [c]).isPrefixOf spelling) ||
    (cs == ['/'] && (c == '/' || c == '*')) ||
    ((cs == ['.'] || cs == ['?', '.']) && isDigit c)

/-- Punctuation, the kinds that are read on request included. -/
def TokenKind.isSign (kind : TokenKind) : Bool :=
  (punctuators ++ requestedPunctuators).any (·.2 == kind)

/-- What is no token: a character that none starts with, or a number sign before a backslash
that starts no escape. -/
def TokenKind.isBroken (kind : TokenKind) (cs : List Char) : Bool :=
  kind == .unknown || (kind == .privateIdentifier && cs == ['#'])

/-- A token of this kind and text goes on with the character, if that comes next. -/
def TokenKind.goesOn (kind : TokenKind) (cs : List Char) (c : Char) : Bool :=
  if kind.isIdentifierOrKeyword || kind == .privateIdentifier then goesOnAsName cs c
  else if kind.isSign then goesOnAsSign cs c
  else
    match kind with
    | .numericLiteral => isNamePart c || (c == '.' && cs.all fun d => isDigit d || d == '_')
    | .regularExpressionLiteral => isNamePart c
    | .jsxText => c != '\x7b' && c != '<'
    | .endOfFile => true
    | _ => false

theorem goesOn_keyword {word : String} (h : TokenKind.ofKeyword? word = some kind) (cs : List Char)
    (c : Char) : kind.goesOn cs c = goesOnAsName cs c ∧ kind ≠ .unknown := by
  have hall : ∀ entry ∈ TokenKind.keywords,
      entry.2.isIdentifierOrKeyword ∧ entry.2 ≠ .unknown := by decide
  obtain ⟨front, back, hsplit, -⟩ := List.lookup_eq_some_iff.1 h
  obtain ⟨hword, hunknown⟩ := hall (word, kind) (by simp [hsplit])
  exact ⟨by simp [TokenKind.goesOn, hword], hunknown⟩

theorem goesOn_sign (h : (spelling, kind) ∈ TokenKind.punctuators ++ TokenKind.requestedPunctuators)
    (cs : List Char) (c : Char) : kind.goesOn cs c = goesOnAsSign cs c ∧ kind ≠ .unknown := by
  have hall : ∀ entry ∈ TokenKind.punctuators ++ TokenKind.requestedPunctuators,
      (entry.2.isIdentifierOrKeyword || entry.2 == .privateIdentifier) = false ∧
        entry.2.isSign ∧ entry.2 ≠ .unknown := by decide +kernel
  obtain ⟨hname, hsign, hunknown⟩ := hall (spelling, kind) h
  exact ⟨by simp [TokenKind.goesOn, hname, hsign], hunknown⟩

/-! ## Punctuation -/

/-- Punctuation that is found before one text is found before another, if no longer one starts
there. -/
theorem find?_local (halone : TokenKind.punctuators.find? (·.1.isPrefixOf cs) = some (cs, kind))
    (hnext : ∀ c ∈ back.head?, ∀ entry ∈ TokenKind.punctuators, ¬cs ++ [c] <+: entry.1) :
    TokenKind.punctuators.find? (·.1.isPrefixOf (cs ++ back)) = some (cs, kind) := by
  have hsame : ∀ entry ∈ TokenKind.punctuators,
      entry.1.isPrefixOf (cs ++ back) = entry.1.isPrefixOf cs := by
    intro entry hentry
    rw [Bool.eq_iff_iff, List.isPrefixOf_iff_prefix, List.isPrefixOf_iff_prefix]
    refine ⟨fun hlong => ?_, fun hshort => hshort.trans (List.prefix_append cs back)⟩
    by_cases hlength : entry.1.length ≤ cs.length
    · exact List.prefix_of_prefix_length_le hlong (List.prefix_append cs back) hlength
    · have hfront : cs <+: entry.1 :=
        List.prefix_of_prefix_length_le (List.prefix_append cs back) hlong (by omega)
      obtain ⟨more, hmore⟩ := hfront
      cases more with
      | nil =>
        rw [List.append_nil] at hmore
        rw [hmore] at hlength
        exact absurd (Nat.le_refl _) hlength
      | cons c more =>
        rw [← hmore, List.prefix_append_right_inj] at hlong
        obtain ⟨tail, rfl⟩ := hlong
        exact absurd ⟨more, by rw [← hmore]; simp⟩ (hnext c rfl entry hentry)
  rw [← halone, ← List.head?_filter, ← List.head?_filter, List.filter_congr hsame]

theorem find?_alone
    (h : TokenKind.punctuators.find? (·.1.isPrefixOf (cs ++ back)) = some (spelling, kind))
    (hlength : spelling.length = cs.length) :
    spelling = cs ∧ TokenKind.punctuators.find? (·.1.isPrefixOf cs) = some (cs, kind) := by
  obtain ⟨hleads, before, after, hsplit, hbefore⟩ := List.find?_eq_some_iff_append.1 h
  rw [List.isPrefixOf_iff_prefix] at hleads
  obtain rfl : spelling = cs :=
    (List.prefix_of_prefix_length_le hleads (List.prefix_append cs back)
      (Nat.le_of_eq hlength)).eq_of_length hlength
  refine ⟨rfl, List.find?_eq_some_iff_append.2 ⟨by simp, before, after, hsplit,
    fun entry hentry => ?_⟩⟩
  have hnot := hbefore entry hentry
  simp only [Bool.not_eq_true', ← Bool.not_eq_true, List.isPrefixOf_iff_prefix] at hnot ⊢
  exact fun hshort => hnot (hshort.trans (List.prefix_append spelling back))

theorem not_prefix_of_goesOnAsSign (h : goesOnAsSign cs c = false) :
    ∀ entry ∈ TokenKind.punctuators ++ TokenKind.requestedPunctuators, ¬cs ++ [c] <+: entry.1 := by
  intro entry hentry hlong
  simp only [goesOnAsSign, Bool.or_eq_false_iff, List.any_eq_false] at h
  exact h.1.1 entry hentry (List.isPrefixOf_iff_prefix.2 hlong)

theorem punctuatorAt_eq (h : ∀ c rest, cs ≠ '?' :: '.' :: c :: rest) :
    punctuatorAt cs = (TokenKind.punctuators.find? (·.1.isPrefixOf cs)).map
      fun (spelling, kind) => (spelling.length, kind) := by
  unfold punctuatorAt
  split
  · exact absurd rfl (h _ _)
  · split <;> rename_i hfound <;> rw [hfound] <;> rfl

/-- Punctuation that is found before a text is the first to be found in its own text. -/
theorem find?_of_punctuatorAt (h : punctuatorAt (cs ++ back) = some (cs.length, kind)) :
    TokenKind.punctuators.find? (·.1.isPrefixOf cs) = some (cs, kind) := by
  by_cases hdigit : ∃ c rest, cs ++ back = '?' :: '.' :: c :: rest
  · obtain ⟨c, rest, hcs⟩ := hdigit
    rw [hcs, punctuatorAt] at h
    split at h
    · obtain ⟨hlength, rfl⟩ : 1 = cs.length ∧ TokenKind.question = kind := by simpa using h
      obtain ⟨a, rfl⟩ := List.length_eq_one_iff.1 hlength.symm
      cases hcs
      rfl
    · obtain ⟨hlength, rfl⟩ : 2 = cs.length ∧ TokenKind.questionDot = kind := by simpa using h
      obtain rfl : cs = ['?', '.'] := by
        rw [← List.take_left' hlength.symm, hcs]
        rfl
      rfl
  · rw [punctuatorAt_eq fun c rest heq => hdigit ⟨c, rest, heq⟩] at h
    obtain ⟨⟨spelling, found⟩, hfound, heq⟩ := Option.map_eq_some_iff.1 h
    obtain ⟨hlength, rfl⟩ : spelling.length = cs.length ∧ found = kind := by simpa using heq
    exact (find?_alone hfound hlength).2

/-- Punctuation is read again before anything that it does not go on with. -/
theorem punctuatorAt_local {back' : List Char}
    (h : punctuatorAt (cs ++ back) = some (cs.length, kind))
    (hnext : ∀ c ∈ back'.head?, goesOnAsSign cs c = false) :
    punctuatorAt (cs ++ back') = some (cs.length, kind) := by
  have halone := find?_of_punctuatorAt h
  by_cases hdigit : ∃ c rest, cs ++ back' = '?' :: '.' :: c :: rest
  · obtain ⟨c, rest, hcs⟩ := hdigit
    rcases cs with _ | ⟨a, _ | ⟨b, _ | ⟨d, more⟩⟩⟩
    · cases halone
    · obtain ⟨rfl, rfl⟩ : a = '?' ∧ back' = '.' :: c :: rest := by simpa using hcs
      cases hnext '.' rfl
    · obtain ⟨rfl, rfl, rfl⟩ : a = '?' ∧ b = '.' ∧ back' = c :: rest := by simpa using hcs
      have hc := hnext c rfl
      simp only [goesOnAsSign, Bool.or_eq_false_iff] at hc
      have hdigit : isDigit c = false := by simpa using hc.2
      cases halone
      simp [punctuatorAt, hdigit]
    · obtain ⟨rfl, rfl, -⟩ : a = '?' ∧ b = '.' ∧
          d :: more ++ back' = c :: rest := by simpa using hcs
      cases halone
  · rw [punctuatorAt_eq fun c rest heq => hdigit ⟨c, rest, heq⟩,
      find?_local halone fun c hc entry hentry =>
      not_prefix_of_goesOnAsSign (hnext c hc) entry (List.mem_append_left _ hentry)]
    rfl

/-- Punctuation that is found is spelled there. -/
theorem punctuatorAt_spells {length : Nat} (h : punctuatorAt cs = some (length, kind)) :
    ∃ spelling, (spelling, kind) ∈ TokenKind.punctuators ∧ spelling <+: cs ∧
      spelling.length = length := by
  unfold punctuatorAt at h
  split at h
  · split at h <;> cases h
    · exact ⟨['?'], by decide, ⟨_, rfl⟩, rfl⟩
    · exact ⟨['?', '.'], by decide, ⟨_, rfl⟩, rfl⟩
  · split at h
    · rename_i spelling kind' hfound
      cases h
      have hleads := List.find?_some hfound
      exact ⟨spelling, List.mem_of_find?_eq_some hfound, List.isPrefixOf_iff_prefix.1 hleads, rfl⟩
    · cases h

/-- Whether punctuation starts here is seen from the first character. -/
theorem punctuatorAt_none {rest' : List Char} (h : punctuatorAt (c :: rest) = none) :
    punctuatorAt (c :: rest') = none ∧ c ≠ '.' := by
  have hany : ∀ entry ∈ TokenKind.punctuators, (entry.1.head?.any fun d =>
      TokenKind.punctuators.any fun other => other.1 == [d]) := by decide
  have hfirst : ∀ entry ∈ TokenKind.punctuators, ∃ d, entry.1.head? = some d ∧
      ∃ other ∈ TokenKind.punctuators, other.1 = [d] := by
    intro entry hentry
    simpa only [Option.any_eq_true, List.any_eq_true, beq_iff_eq] using hany entry hentry
  have hnone : ∀ entry ∈ TokenKind.punctuators, entry.1.head? ≠ some c := by
    intro entry hentry hhead
    obtain ⟨d, hd, other, hother, hsingle⟩ := hfirst entry hentry
    obtain rfl : d = c := Option.some.inj (hd.symm.trans hhead)
    unfold punctuatorAt at h
    split at h
    · split at h <;> cases h
    · split at h
      · cases h
      · rename_i hfound
        have hnot := List.find?_eq_none.1 hfound other hother
        simp [hsingle] at hnot
  have hno : ∀ cs, cs.head? = some c → TokenKind.punctuators.find? (·.1.isPrefixOf cs) = none := by
    intro cs hcs
    rw [List.find?_eq_none]
    intro entry hentry hleads
    obtain ⟨tail, htail⟩ := List.isPrefixOf_iff_prefix.1 hleads
    have hhead := hnone entry hentry
    obtain ⟨d, hd, -⟩ := hfirst entry hentry
    cases hspelling : entry.1 with
    | nil => simp [hspelling] at hd
    | cons e spelling =>
      rw [hspelling] at htail hhead
      rw [← htail] at hcs
      exact hhead hcs
  have hquestion : c ≠ '?' := by
    rintro rfl
    exact hnone (['?'], .question) (by decide) rfl
  refine ⟨?_, fun hdot => hnone (['.'], .dot) (by decide) (by rw [hdot]; rfl)⟩
  rw [punctuatorAt_eq (fun d tail heq => hquestion (List.cons.inj heq).1), hno _ rfl]
  rfl

/-! ## Tokens -/

theorem readString_eq (quote : Char) (flags : TokenFlags) (start : Cursor) :
    (readString quote flags start).kind = .stringLiteral ∧
      (readString quote flags start).stop =
        (stringEnd quote (start.offset + 1) (start.rest.drop 1)).stop ∧
      (readString quote flags start).flags.unterminated =
        (flags.unterminated || !(stringEnd quote (start.offset + 1)
          (start.rest.drop 1)).terminated) := by
  unfold readString
  generalize stringEnd quote (start.offset + 1) (start.rest.drop 1) = found
  dsimp only
  split <;> rename_i hend <;> simp [hend]

/-- The first character is a digit, or a dot that a digit follows. -/
def startsNumber (c : Char) (rest : List Char) : Bool :=
  isDigit c || (c == '.' && rest.head?.any isDigit)

theorem readToken_cons (h : start.rest = c :: rest) :
    readToken flags start =
      if c == '\x22' || c == '\x27' then readString c flags start
      else if c == '\x60' then readTemplate true flags start
      else if startsNumber c rest then readNumber flags start
      else
        match punctuatorAt (c :: rest) with
        | some (length, kind) => ⟨start.skip length, kind, flags, []⟩
        | none =>
          if c == '#' then readPrivateName flags start
          else if c == '\\' || isNameStart c then readName flags start
          else readUnknown flags start := by
  obtain ⟨offset, text⟩ := start
  cases h
  rfl

/-- The kinds of tokens that are neither strings nor punctuation nor words. -/
def TokenKind.isOther : TokenKind → Bool
  | .noSubstitutionTemplateLiteral | .templateHead | .numericLiteral | .bigIntLiteral
  | .privateIdentifier | .unknown | .endOfFile => true
  | _ => false

/-- What a token can be: a string, punctuation, a word, or something else. -/
theorem readToken_cases (flags : TokenFlags) (start : Cursor) :
    (∃ c rest, start.rest = c :: rest ∧ (c = '\x22' ∨ c = '\x27') ∧
        readToken flags start = readString c flags start) ∨
      (∃ length kind, punctuatorAt start.rest = some (length, kind) ∧
        readToken flags start = ⟨start.skip length, kind, flags, []⟩) ∨
      readToken flags start = readName flags start ∨
      (readToken flags start).kind.isOther := by
  cases h : start.rest with
  | nil =>
    rw [readToken, h]
    exact .inr (.inr (.inr rfl))
  | cons c rest =>
    rw [readToken_cons h]
    split
    · rename_i hquote
      exact .inl ⟨c, rest, rfl, by simpa using hquote, rfl⟩
    · split
      · right; right; right
        unfold readTemplate
        dsimp only
        split <;> rfl
      · split
        · right; right; right
          rw [(readNumber_eq flags start).2.2]
          split <;> rfl
        · split
          · rename_i length kind hfound
            exact .inr (.inl ⟨length, kind, hfound, rfl⟩)
          · split
            · right; right; right
              unfold readPrivateName
              split <;> rfl
            · split
              · exact .inr (.inr (.inl rfl))
              · exact .inr (.inr (.inr rfl))

/-- The first character belongs to the token. -/
theorem readToken_takes (hstart : start.rest = c :: rest) :
    ∃ front, rest = front ++ (readToken flags start).stop.rest := by
  have hfits := readToken_fits flags start
  obtain ⟨middle, hmiddle, hoffset⟩ := hfits.stop
  cases middle with
  | cons d front =>
    rw [hstart] at hmiddle
    cases hmiddle
    exact ⟨front, rfl⟩
  | nil =>
    exfalso
    by_cases hend : (readToken flags start).kind = .endOfFile
    · rw [List.nil_append, hfits.ends hend, hstart] at hmiddle
      cases hmiddle
    · have hless := hfits.moves hend
      simp [byteLength_nil] at hoffset
      omega

/-- Another reading finds a token of the same kind, and stops before the rest. -/
structure Reading.Repeats (found again : Reading) (rest : List Char) : Prop where
  kind : again.kind = found.kind
  stop : again.stop.rest = rest
  unterminated : again.flags.unterminated = found.flags.unterminated

theorem readTemplate_eq (opensTemplate : Bool) (flags : TokenFlags) (start : Cursor) :
    (readTemplate opensTemplate flags start).kind =
        (match (templateEnd (start.offset + 1) (start.rest.drop 1)).2, opensTemplate with
          | .substitution, true => .templateHead
          | .substitution, false => .templateMiddle
          | _, true => .noSubstitutionTemplateLiteral
          | _, false => .templateTail) ∧
      (readTemplate opensTemplate flags start).stop =
        (templateEnd (start.offset + 1) (start.rest.drop 1)).1 ∧
      (readTemplate opensTemplate flags start).flags.unterminated =
        (flags.unterminated || !(templateEnd (start.offset + 1) (start.rest.drop 1)).2.isEnd) := by
  unfold readTemplate
  generalize templateEnd (start.offset + 1) (start.rest.drop 1) = found
  obtain ⟨stop, reason⟩ := found
  cases opensTemplate <;> cases reason <;> simp [TemplateStop.isEnd]

section Local

variable {flags flags' : TokenFlags} {start start' : Cursor} {c : Char} {cs back back' : List Char}
variable {d : Char}

theorem goesOn_numericLiteral (h : TokenKind.goesOn .numericLiteral cs d = false) :
    isNamePart d = false ∧ (d = '.' → ∃ e ∈ cs, isDigit e = false ∧ e ≠ '_') := by
  have heq : TokenKind.goesOn .numericLiteral cs d =
    (isNamePart d || (d == '.' && cs.all fun e => isDigit e || e == '_')) := rfl
  rw [heq, Bool.or_eq_false_iff] at h
  refine ⟨h.1, fun hdot => ?_⟩
  simpa [hdot] using h.2

theorem nameEnd_local (hstart : start.rest = cs ++ back) (hstop : (nameEnd start).stop.rest = back)
    (hstart' : start'.rest = cs ++ back')
    (hnext : ∀ d ∈ back'.head?, isNamePart d = false ∧ d ≠ '\\')
    (hescape : '\\' ∈ cs → EndsEscape back') :
    (nameEnd start').stop.rest = back' ∧ (nameEnd start').hasEscape = (nameEnd start).hasEscape :=
  nameEndFrom_local hstart hstop hstart' rfl (by rw [hstart', List.length_append]; omega)
    hnext hescape

theorem goesOnAsName_eq_false (h : goesOnAsName cs d = false) :
    (isNamePart d = false ∧ d ≠ '\\') ∧ ('\\' ∈ cs → d ≠ '\x7b' ∧ d ≠ '\x7d') := by
  simp only [goesOnAsName, Bool.or_eq_false_iff, beq_eq_false_iff_ne] at h
  refine ⟨h.1, fun hmem => ?_⟩
  simpa [hmem] using h.2

/-- The kind of a name, with an escape or without. -/
def nameKind (hasEscape : Bool) (word : String) : TokenKind :=
  if hasEscape then .identifier else (TokenKind.ofKeyword? word).getD .identifier

theorem goesOn_nameKind (hasEscape : Bool) (word : String) (d : Char) :
    (nameKind hasEscape word).goesOn cs d = goesOnAsName cs d := by
  unfold nameKind
  split
  · rfl
  · cases hword : TokenKind.ofKeyword? word with
    | none => rfl
    | some kind => exact (goesOn_keyword hword cs d).1

theorem textTo_nameEnd (hstart : start.rest = cs ++ back)
    (hstop : (nameEnd start).stop.rest = back) :
    start.textTo (nameEnd start).stop = .ofList cs ∧
      (nameEnd start).stop.offset = start.offset + byteLength cs := by
  obtain ⟨middle, hmiddle, hoffset⟩ := leads_nameEnd start
  obtain rfl : cs = middle := by
    rw [hstop, hstart] at hmiddle
    exact List.append_cancel_right hmiddle
  exact ⟨textTo_of_append hmiddle hoffset, hoffset⟩

/-- What is read as a number starts as one before anything else, too. -/
theorem startsNumber_again (hstart : start.rest = c :: (cs ++ back))
    (hstop : (readNumber flags start).stop.rest = back) (h : startsNumber c (cs ++ back)) :
    startsNumber c (cs ++ back') := by
  simp only [startsNumber, Bool.or_eq_true, Bool.and_eq_true, beq_iff_eq] at h ⊢
  rcases h with hdigit | ⟨rfl, hdigit⟩
  · exact .inl hdigit
  · cases cs with
    | cons d cs => exact .inr ⟨rfl, hdigit⟩
    | nil =>
      -- The digit after the dot would have been left.
      cases back with
      | nil => cases hdigit
      | cons d back =>
        obtain ⟨ds, hds⟩ := numberEnd_dot hstart hdigit
        rw [(readNumber_eq flags start).2.1] at hstop
        have hlength := congrArg List.length hds
        have hlength' := congrArg List.length hstop
        split at hlength' <;>
          simp only [List.length_append, List.length_cons, skip_rest, List.length_drop]
            at hlength hlength' <;> omega

theorem kind_readPrivateName (h : (readPrivateName flags start).kind ≠ .unknown) :
    (readPrivateName flags start).kind = .privateIdentifier := by
  unfold readPrivateName at h ⊢
  split
  · rfl
  · rw [if_neg ‹_›] at h
    exact absurd rfl h

section Again

variable (hflags : flags'.unterminated = flags.unterminated) (hstart : start.rest = c :: cs ++ back)
  (hstart' : start'.rest = c :: cs ++ back')

include hflags hstart hstart'

theorem readString_local (hc : c ≠ '\\') (hstop : (readString c flags start).stop.rest = back)
    (hnext : ∀ d ∈ back'.head?, (readString c flags start).flags.unterminated = false) :
    (readString c flags start).Repeats (readString c flags' start') back' := by
  obtain ⟨hkind, hend, hopen⟩ := readString_eq c flags start
  obtain ⟨hkind', hend', hopen'⟩ := readString_eq c flags' start'
  simp only [hstart, hstart', List.cons_append, List.drop_succ_cons, List.drop_zero] at *
  obtain ⟨front, hfront, htaken⟩ := stringEnd_local hc (start.offset + 1) (cs ++ back)
  rw [← hend, hstop] at hfront
  obtain rfl := List.append_cancel_right hfront
  have hclosed : ∀ d ∈ back'.head?, (stringEnd c (start.offset + 1) (cs ++ back)).terminated := by
    intro d hd
    have hd := hnext d hd
    rw [hopen, Bool.or_eq_false_iff] at hd
    simpa using hd.2
  obtain ⟨hreason, hrest⟩ := htaken.repeats hclosed (start'.offset + 1)
  refine ⟨hkind'.trans hkind.symm, by rw [hend']; exact hrest, ?_⟩
  rw [hopen, hopen', hflags]
  exact congrArg _ (congrArg _ hreason)

theorem readTemplate_local (opensTemplate : Bool)
    (hstop : (readTemplate opensTemplate flags start).stop.rest = back)
    (hnext : ∀ d ∈ back'.head?,
      (readTemplate opensTemplate flags start).flags.unterminated = false) :
    (readTemplate opensTemplate flags start).Repeats (readTemplate opensTemplate flags' start')
      back' := by
  obtain ⟨hkind, hend, hopen⟩ := readTemplate_eq opensTemplate flags start
  obtain ⟨hkind', hend', hopen'⟩ := readTemplate_eq opensTemplate flags' start'
  simp only [hstart, hstart', List.cons_append, List.drop_succ_cons, List.drop_zero] at *
  obtain ⟨front, hfront, htaken⟩ := templateEnd_local (start.offset + 1) (cs ++ back)
  rw [← hend, hstop] at hfront
  obtain rfl := List.append_cancel_right hfront
  have hclosed : ∀ d ∈ back'.head?,
      (templateEnd (start.offset + 1) (cs ++ back)).2.isEnd := by
    intro d hd
    have hd := hnext d hd
    rw [hopen, Bool.or_eq_false_iff] at hd
    simpa using hd.2
  obtain ⟨hreason, hrest⟩ := htaken.repeats hclosed (start'.offset + 1)
  refine ⟨?_, by rw [hend']; exact hrest, ?_⟩
  · rw [hkind, hkind', hreason]
  · rw [hopen, hopen', hflags, hreason]

theorem readNumber_local (hc : c ≠ 'n') (hstop : (readNumber flags start).stop.rest = back)
    (hnext : ∀ d ∈ back'.head?, (readNumber flags start).kind.goesOn (c :: cs) d = false) :
    (readNumber flags start).Repeats (readNumber flags' start') back' := by
  obtain ⟨hopen, hend, hkind⟩ := readNumber_eq flags start
  obtain ⟨hopen', hend', hkind'⟩ := readNumber_eq flags' start'
  have hopens := hopen'.trans (hflags.trans hopen.symm)
  obtain ⟨digits, hdigits, -⟩ := leads_numberEnd start
  by_cases hn : (numberEnd start).rest.head? = some 'n'
  · rw [hn, beq_self_eq_true, if_pos rfl] at hend hkind
    obtain ⟨tail, htail⟩ : ∃ tail, (numberEnd start).rest = 'n' :: tail := by
      cases hrest : (numberEnd start).rest with
      | nil => simp [hrest] at hn
      | cons d tail => exact ⟨tail, by simpa [hrest] using hn⟩
    obtain rfl : tail = back := by simpa [hend, htail] using hstop
    have hcs : c :: cs = digits ++ ['n'] := by
      apply List.append_cancel_right
      rw [← hstart, hdigits, htail, List.append_assoc]
      rfl
    have hne : digits ≠ [] := by
      rintro rfl
      cases hcs
      exact hc rfl
    rw [htail] at hdigits
    rw [hcs, List.append_assoc] at hstart'
    have hagain : (numberEnd start').rest = 'n' :: back' :=
      numberEnd_local hdigits hne htail hstart' (by rintro d ⟨rfl⟩; decide) rfl nofun
    rw [hagain] at hend' hkind'
    exact ⟨hkind'.trans hkind.symm, by rw [hend']; simp [hagain], hopens⟩
  · rw [if_neg (by simpa using hn)] at hend hkind
    rw [hkind] at hnext
    rw [hend] at hstop
    have hpart : ∀ d ∈ back'.head?, isNamePart d = false :=
      fun d hd => (goesOn_numericLiteral (hnext d hd)).1
    have hagain : (numberEnd start').rest = back' := by
      refine numberEnd_local hstart (List.cons_ne_nil _ _) hstop hstart'
        (fun d hd => ⟨?_, ?_⟩) ?_ ?_
      · cases hhex : isHexDigit d with
        | false => rfl
        | true => cases (hpart d hd).symm.trans (isNamePart_of_isHexDigit hhex)
      · rintro rfl
        cases hpart _ hd
      · cases back' with
        | nil => rfl
        | cons d back' =>
          have hletter : ∀ e, isNamePart e → d ≠ e := by
            rintro e he rfl
            cases (hpart d rfl).symm.trans he
          simp [digitsOfBase?, baseDigits, hletter 'x' rfl, hletter 'X' rfl, hletter 'o' rfl,
            hletter 'O' rfl, hletter 'b' rfl, hletter 'B' rfl]
      · intro hdot
        exact (goesOn_numericLiteral (hnext '.' hdot)).2 rfl
    have hn' : (back'.head? == some 'n') = false := by
      cases back' with
      | nil => rfl
      | cons d back' =>
        have hd : d ≠ 'n' := by
          rintro rfl
          cases hpart 'n' rfl
        simpa using hd
    rw [hagain, hn'] at hend' hkind'
    exact ⟨hkind'.trans hkind.symm, by rw [hend']; exact hagain, hopens⟩

theorem readName_local (hstop : (readName flags start).stop.rest = back)
    (hknown : (readName flags start).kind ≠ .unknown)
    (hnext : ∀ d ∈ back'.head?, (readName flags start).kind.goesOn (c :: cs) d = false) :
    (readName flags start).Repeats (readName flags' start') back' := by
  have hread : ∀ flags start, (nameEnd start).stop.offset ≠ start.offset →
      readName flags start = ⟨(nameEnd start).stop,
        nameKind (nameEnd start).hasEscape (start.textTo (nameEnd start).stop),
        { flags with unicodeEscape := (nameEnd start).hasEscape },
        escapeFindings (nameEnd start)⟩ := by
    intro flags start hmoves
    rw [readName, if_neg (by simpa using hmoves)]
    rfl
  have hmoves : (nameEnd start).stop.offset ≠ start.offset := by
    intro hsame
    rw [readName, if_pos (by simpa using hsame)] at hknown
    exact hknown rfl
  rw [hread flags start hmoves] at hstop hnext ⊢
  have hgoes : ∀ d ∈ back'.head?, goesOnAsName (c :: cs) d = false := by
    intro d hd
    rw [← hnext d hd, goesOn_nameKind]
  obtain ⟨hrest, hescape⟩ := nameEnd_local hstart hstop hstart'
    (fun d hd => (goesOnAsName_eq_false (hgoes d hd)).1) fun hmem d hd => by
      obtain ⟨⟨hpart, -⟩, hbrace⟩ := goesOnAsName_eq_false (hgoes d hd)
      exact ⟨hpart, hbrace hmem⟩
  obtain ⟨hword, -⟩ := textTo_nameEnd hstart hstop
  obtain ⟨hword', hoffset'⟩ := textTo_nameEnd hstart' hrest
  have hpos := c.utf8Size_pos
  rw [byteLength_cons] at hoffset'
  rw [hread flags' start' (by omega)]
  exact ⟨by rw [hescape, hword, hword'], hrest, hflags⟩

theorem readPrivateName_local (hstop : (readPrivateName flags start).stop.rest = back)
    (hknown : (readPrivateName flags start).kind ≠ .unknown) (hcs : cs ≠ [])
    (hnext : ∀ d ∈ back'.head?, (readPrivateName flags start).kind.goesOn (c :: cs) d = false) :
    (readPrivateName flags start).Repeats (readPrivateName flags' start') back' := by
  obtain ⟨e, tail, rfl⟩ := List.exists_cons_of_ne_nil hcs
  have hopens : (isNameStart e || e == '\\') := by
    cases hopens : isNameStart e || e == '\\' with
    | true => rfl
    | false =>
      rw [readPrivateName, hstart, if_neg (by simpa using hopens)] at hknown
      exact absurd rfl hknown
  have hread : ∀ flags start rest, start.rest = c :: e :: rest → readPrivateName flags start =
      ⟨(nameEnd (start.skip 1)).stop, .privateIdentifier,
        { flags with unicodeEscape := (nameEnd (start.skip 1)).hasEscape },
        escapeFindings (nameEnd (start.skip 1))⟩ := by
    intro flags start rest hrest
    rw [readPrivateName, hrest, if_pos (by simpa using hopens)]
  rw [hread _ _ _ hstart] at hstop hnext ⊢
  rw [hread _ _ _ hstart']
  have hgoes : ∀ d ∈ back'.head?, goesOnAsName (c :: e :: tail) d = false := hnext
  have hskip : (start.skip 1).rest = e :: tail ++ back := by simp [hstart]
  have hskip' : (start'.skip 1).rest = e :: tail ++ back' := by simp [hstart']
  obtain ⟨hrest, -⟩ := nameEnd_local hskip hstop hskip'
    (fun d hd => (goesOnAsName_eq_false (hgoes d hd)).1) fun hmem d hd => by
      obtain ⟨⟨hpart, -⟩, hbrace⟩ := goesOnAsName_eq_false (hgoes d hd)
      exact ⟨hpart, hbrace (List.mem_cons_of_mem _ hmem)⟩
  exact ⟨rfl, hrest, hflags⟩

omit hflags in
/-- Punctuation is read again, and no number in its place. -/
theorem punctuatorAt_again {length : Nat} {kind : TokenKind}
    (hfound : punctuatorAt (c :: (cs ++ back)) = some (length, kind))
    (hstop : (start.skip length).rest = back)
    (hnumber : startsNumber c (cs ++ back) = false)
    (hnext : ∀ d ∈ back'.head?, kind.goesOn (c :: cs) d = false) :
    punctuatorAt (c :: (cs ++ back')) = some (length, kind) ∧ (start'.skip length).rest = back' ∧
      startsNumber c (cs ++ back') = false := by
  obtain ⟨spelling, hmem, hspells, hlong⟩ := punctuatorAt_spells hfound
  obtain rfl : length = (c :: cs).length := by
    have hle := hlong ▸ hspells.length_le
    have hlength := congrArg List.length hstop
    simp only [skip_rest, hstart, List.length_drop, List.length_cons, List.length_append]
      at hlength hle ⊢
    omega
  have hsign : ∀ d ∈ back'.head?, goesOnAsSign (c :: cs) d = false := fun d hd =>
    (goesOn_sign (List.mem_append_left _ hmem) _ d).1.symm.trans (hnext d hd)
  refine ⟨punctuatorAt_local hfound hsign, by simp [hstart'], ?_⟩
  rw [startsNumber, Bool.or_eq_false_iff] at hnumber ⊢
  refine ⟨hnumber.1, ?_⟩
  cases cs with
  | cons d cs => exact hnumber.2
  | nil =>
    cases back' with
    | nil => simp
    | cons d back' =>
      have hd := hsign d rfl
      simp only [goesOnAsSign, Bool.or_eq_false_iff] at hd
      by_cases hdot : c = '.'
      · simpa [hdot] using hd.2
      · simp [hdot]

theorem readToken_cons_local (hstop : (readToken flags start).stop.rest = back)
    (hwhole : (readToken flags start).kind.isBroken (c :: cs) = false)
    (hopen : ∀ d ∈ back'.head?, (readToken flags start).flags.unterminated = false)
    (hnext : ∀ d ∈ back'.head?, (readToken flags start).kind.goesOn (c :: cs) d = false) :
    (readToken flags start).Repeats (readToken flags' start') back' := by
  simp only [TokenKind.isBroken, Bool.or_eq_false_iff, beq_eq_false_iff_ne] at hwhole
  have hrest : start.rest = c :: (cs ++ back) := hstart
  have hrest' : start'.rest = c :: (cs ++ back') := hstart'
  rw [readToken_cons hrest] at hstop hwhole hopen hnext ⊢
  rw [readToken_cons hrest']
  by_cases hquote : (c == '\x22' || c == '\x27')
  · simp only [if_pos hquote] at hstop hopen ⊢
    exact readString_local hflags hstart hstart' (by rintro rfl; cases hquote) hstop hopen
  simp only [if_neg hquote] at hstop hwhole hopen hnext ⊢
  by_cases htick : (c == '\x60')
  · simp only [if_pos htick] at hstop hopen ⊢
    exact readTemplate_local hflags hstart hstart' true hstop hopen
  simp only [if_neg htick] at hstop hwhole hnext ⊢
  by_cases hnumber : startsNumber c (cs ++ back)
  · rw [if_pos hnumber] at hstop hnext ⊢
    rw [if_pos (startsNumber_again hstart hstop hnumber)]
    exact readNumber_local hflags hstart hstart' (by rintro rfl; cases hnumber) hstop hnext
  rw [if_neg hnumber] at hstop hwhole hnext ⊢
  rw [Bool.not_eq_true] at hnumber
  cases hfound : punctuatorAt (c :: (cs ++ back)) with
  | some found =>
    rw [hfound] at hstop hnext
    obtain ⟨hfound', hstop', hnumber'⟩ :=
      punctuatorAt_again hstart hstart' hfound hstop hnumber hnext
    rw [if_neg (Bool.eq_false_iff.1 hnumber'), hfound']
    exact ⟨rfl, hstop', hflags⟩
  | none =>
    rw [hfound] at hstop hwhole hnext
    obtain ⟨hfound', hdot⟩ : punctuatorAt (c :: (cs ++ back')) = none ∧ c ≠ '.' :=
      punctuatorAt_none hfound
    have hnumber' : startsNumber c (cs ++ back') = false := by
      simpa [startsNumber, hdot] using hnumber
    rw [if_neg (Bool.eq_false_iff.1 hnumber'), hfound']
    dsimp only at hstop hwhole hnext ⊢
    by_cases hhash : (c == '#')
    · simp only [if_pos hhash] at hstop hwhole hnext ⊢
      refine readPrivateName_local hflags hstart hstart' hstop hwhole.1 ?_ hnext
      rintro rfl
      simp [kind_readPrivateName hwhole.1, beq_iff_eq.1 hhash] at hwhole
    simp only [if_neg hhash] at hstop hwhole hnext ⊢
    by_cases hname : (c == '\\' || isNameStart c)
    · simp only [if_pos hname] at hstop hwhole hnext ⊢
      exact readName_local hflags hstart hstart' hstop hwhole.1 hnext
    · rw [if_neg hname] at hwhole
      exact absurd rfl hwhole.1

end Again

/-- A token is read again before anything that it does not go on with. -/
theorem readToken_local (hflags : flags'.unterminated = flags.unterminated)
    (hstart : start.rest = cs ++ back) (hstop : (readToken flags start).stop.rest = back)
    (hwhole : (readToken flags start).kind.isBroken cs = false)
    (hstart' : start'.rest = cs ++ back')
    (hnext : ∀ d ∈ back'.head?, (readToken flags start).flags.unterminated = false ∧
      (readToken flags start).kind.goesOn cs d = false) :
    (readToken flags start).Repeats (readToken flags' start') back' := by
  cases hrest : start.rest with
  | nil =>
    obtain ⟨rfl, rfl⟩ := List.append_eq_nil_iff.1 (hstart.symm.trans hrest)
    have hend : readToken flags start = ⟨start, .endOfFile, flags, []⟩ := by rw [readToken, hrest]
    rw [hend] at hnext ⊢
    cases back' with
    | nil =>
      rw [readToken, hstart']
      exact ⟨rfl, hstart', hflags⟩
    | cons d back' => cases (hnext d rfl).2
  | cons c rest =>
    obtain ⟨front, rfl⟩ : ∃ front, rest = front ++ (readToken flags start).stop.rest :=
      readToken_takes hrest
    rw [hstop] at hrest
    obtain rfl : cs = c :: front := List.append_cancel_right (hstart.symm.trans hrest)
    exact readToken_cons_local hflags hstart hstart' hstop hwhole (fun d hd => (hnext d hd).1)
      fun d hd => (hnext d hd).2

end Local

end Untype
