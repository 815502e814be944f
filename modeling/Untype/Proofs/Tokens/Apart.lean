-- Two tokens of a text, written next to each other, are read as these two,
-- unless the first one goes on with the second.
import Untype.Proofs.Tilings
import Untype.Proofs.Tokens.Manners

namespace Untype

open Untype.Text Cursor

variable {text : String} {s : Scanner}

/-! ## Tokens of a text -/

/-- The scanners differ in what they found so far at most. -/
structure Scanner.Agrees (s t : Scanner) : Prop where
  full : s.full = t.full
  start : s.start = t.start
  here : s.here = t.here
  kind : s.kind = t.kind
  flags : s.flags = t.flags

namespace Scanner

variable {s t : Scanner}

theorem Agrees.refl (s : Scanner) : s.Agrees s := ⟨rfl, rfl, rfl, rfl, rfl⟩

theorem Agrees.trans {u : Scanner} (h : s.Agrees t) (h' : t.Agrees u) : s.Agrees u :=
  ⟨h.full.trans h'.full, h.start.trans h'.start, h.here.trans h'.here, h.kind.trans h'.kind,
    h.flags.trans h'.flags⟩

/-- What was found so far does not count when a token is read anew. -/
theorem Agrees.rescan (h : s.Agrees t) (m : Manner) : (m.rescan s).Agrees (m.rescan t) := by
  obtain ⟨full, start, here, kind, flags, findings⟩ := s
  obtain ⟨full', start', here', kind', flags', findings'⟩ := t
  obtain ⟨hfull, hstart, hhere, hkind, hflags⟩ := h
  dsimp only at hfull hstart hhere hkind hflags
  subst hfull hstart hhere hkind hflags
  cases m with
  | plain | jsx => exact ⟨rfl, rfl, rfl, rfl, rfl⟩
  | slash =>
    simp only [Manner.rescan, rescanSlash]
    split_ifs <;> exact ⟨rfl, rfl, rfl, rfl, rfl⟩
  | template =>
    simp only [Manner.rescan, rescanTemplate]
    split_ifs <;> exact ⟨rfl, rfl, rfl, rfl, rfl⟩
  | greater =>
    simp only [Manner.rescan, rescanGreater]
    split_ifs
    · split <;> exact ⟨rfl, rfl, rfl, rfl, rfl⟩
    · exact ⟨rfl, rfl, rfl, rfl, rfl⟩
  | jsxName =>
    simp only [Manner.rescan, rescanJsxName]
    split_ifs <;> exact ⟨rfl, rfl, rfl, rfl, rfl⟩
  | jsxValue =>
    simp only [Manner.rescan, rescanJsxValue]
    split
    · split_ifs <;> exact ⟨rfl, rfl, rfl, rfl, rfl⟩
    · exact ⟨rfl, rfl, rfl, rfl, rfl⟩

end Scanner

theorem Cursor.skipWhile_again (p : Char → Bool) (offset : Nat) (cs : List Char) :
    skipWhile p (skipWhile p offset cs).offset (skipWhile p offset cs).rest =
      skipWhile p offset cs := by
  fun_induction skipWhile p offset cs with
  | case1 offset => rfl
  | case2 offset c rest hc ih => exact ih
  | case3 offset c rest hc => rw [skipWhile, if_neg hc]

namespace Manner

variable {n : Manner} {s : Scanner}

theorem rescanGreater_again (h : n.applies s.rescanGreater.kind) : s.rescanGreater = s := by
  revert h
  unfold Scanner.rescanGreater
  dsimp only
  split
  · split
    case h_6 => exact fun _ => rfl
    all_goals
      intro h
      cases n <;> cases h
  · exact fun _ => rfl

theorem rescanJsxName_again (h : s.kind.isIdentifierOrKeyword) :
    s.rescanJsxName.rescanJsxName.Agrees s.rescanJsxName := by
  have hread : ∀ s : Scanner, s.kind.isIdentifierOrKeyword → s.rescanJsxName =
      s.reread ⟨skipWhile (fun c => c == '-' || isNamePart c) s.here.offset s.here.rest,
        .identifier, s.flags, []⟩ := fun s hs => if_pos hs
  rw [hread s h, hread _ rfl]
  exact ⟨rfl, rfl, Cursor.skipWhile_again _ _ _, rfl, rfl⟩

theorem rescanJsxValue_again (h : s.kind = .stringLiteral) :
    s.rescanJsxValue.rescanJsxValue = s.rescanJsxValue := by
  obtain ⟨full, start, here, kind, flags, findings⟩ := s
  obtain ⟨offset, rest⟩ := start
  obtain rfl : kind = .stringLiteral := h
  cases rest with
  | nil => rfl
  | cons quote rest =>
    cases hfound : (attributeEnd quote (offset + 1) rest).terminated with
    | true | false => simp [Scanner.rescanJsxValue, Scanner.reread, hfound]

/-- A token that was read anew is not read anew once more, or comes out the same. -/
theorem rescan_rescan (m n : Manner) (s : Scanner) :
    ∃ k : Manner, (n.rescan (m.rescan s)).Agrees (k.rescan s) := by
  cases hm : m.applies s.kind with
  | false => exact ⟨n, by rw [rescan_of_not_applies hm]; exact .refl _⟩
  | true =>
    cases hn : n.applies (m.rescan s).kind with
    | false => exact ⟨m, by rw [rescan_of_not_applies hn]; exact .refl _⟩
    | true =>
      cases m with
      | plain | jsx => cases hm
      | slash =>
        rw [rescan, (Scanner.rescanSlash_eq (by simpa [applies] using hm)).2.1] at hn
        cases n <;> cases hn
      | template =>
        have hkind : (rescan .template s).kind = .templateTail ∨
            (rescan .template s).kind = .templateMiddle := by
          rw [rescan, Scanner.rescanTemplate, if_pos (by simpa [applies] using hm)]
          simp only [Scanner.reread, readTemplate]
          split <;> simp
        rcases hkind with hkind | hkind <;> rw [hkind] at hn <;> cases n <;> cases hn
      | greater => exact ⟨n, by rw [rescan, rescanGreater_again hn]; exact .refl _⟩
      | jsxName =>
        rw [rescan, (Scanner.rescanJsxName_eq hm).2.1] at hn
        cases n with
        | jsxName => exact ⟨jsxName, rescanJsxName_again hm⟩
        | _ => cases hn
      | jsxValue =>
        have hkind : s.kind = .stringLiteral := by simpa [applies] using hm
        cases n with
        | jsxValue =>
          refine ⟨jsxValue, ?_⟩
          simp only [rescan, rescanJsxValue_again hkind]
          exact .refl _
        | _ =>
          rw [rescan, Scanner.rescanJsxValue_kind hkind] at hn
          cases hn

end Manner

/-- The text has a place where the scanner finds its token, read in this manner. -/
def Scanner.ReadAs (text : String) (m : Manner) (s : Scanner) : Prop :=
  ∃ before : Scanner, before.Fits text ∧ s.Agrees (m.read before)

namespace Scanner

variable {text : String} {m n : Manner} {s t : Scanner} {cs ds : List Char}

theorem ReadAs.rescan (h : s.ReadAs text m) (n : Manner) : ∃ k, (n.rescan s).ReadAs text k := by
  obtain ⟨before, hfits, hagrees⟩ := h
  by_cases hm : m = .jsx
  · subst hm
    have hkind : n.applies s.kind = false := by
      rw [hagrees.kind, Manner.read, if_pos rfl, (scanJsx_eq before).2.2.2]
      fun_cases jsxEnd before.here.rest <;> cases n <;> rfl
    rw [Manner.rescan_of_not_applies hkind]
    exact ⟨.jsx, before, hfits, hagrees⟩
  · rw [Manner.read, if_neg hm] at hagrees
    obtain ⟨k, hk⟩ := Manner.rescan_rescan m n before.scan
    have hagain := (hagrees.rescan n).trans hk
    by_cases hjsx : k = .jsx
    · subst hjsx
      exact ⟨.plain, before, hfits, hagain⟩
    · exact ⟨k, before, hfits, by rwa [Manner.read, if_neg hjsx]⟩

theorem Reached.readAs (h : Reached text s) : ∃ m, s.ReadAs text m := by
  have hrescan : ∀ {s : Scanner} (n : Manner), (∃ m, s.ReadAs text m) →
      ∃ m, (n.rescan s).ReadAs text m := fun n ⟨_, hread⟩ => hread.rescan n
  induction h with
  | start => exact ⟨.plain, _, .ofText text, .refl _⟩
  | scan hs ih => exact ⟨.plain, _, hs.fits, .refl _⟩
  | scanJsx hs ih => exact ⟨.jsx, _, hs.fits, .refl _⟩
  | rescanSlash hs ih => exact hrescan .slash ih
  | rescanTemplate hs ih => exact hrescan .template ih
  | rescanGreater hs ih => exact hrescan .greater ih
  | rescanJsxName hs ih => exact hrescan .jsxName ih
  | rescanJsxValue hs ih => exact hrescan .jsxValue ih

end Scanner

theorem Scanner.Fits.read (h : s.Fits text) (m : Manner) : (m.read s).Fits text := by
  cases m with
  | plain => exact h.scan
  | slash => exact h.scan.rescanSlash
  | template => exact h.scan.rescanTemplate
  | greater => exact h.scan.rescanGreater
  | jsx => exact h.scanJsx
  | jsxName => exact h.scan.rescanJsxName
  | jsxValue => exact h.scan.rescanJsxValue

theorem Scanner.Fits.split (h : s.Fits text) :
    s.start.rest = s.text.toList ++ s.here.rest ∧
      Text.slice text s.start.offset s.here.offset = s.text := by
  obtain ⟨front, hfront, hoffset⟩ := h.here
  obtain ⟨before, hbefore, hstart⟩ := h.full.trans h.start
  have htext : s.text = .ofList front := textTo_of_append hfront hoffset
  rw [htext, String.toList_ofList]
  refine ⟨hfront, ?_⟩
  have hall : text.toList = before ++ front ++ s.here.rest := by
    rw [List.append_assoc, ← hfront]
    exact hbefore
  rw [hoffset, hstart, Cursor.ofText, Nat.zero_add, ← byteLength_append]
  exact Text.slice_eq_ofList hall

/-! ## Two tokens side by side -/

namespace Token

/-- The characters of the token. -/
def chars (text : String) (token : Token) : List Char := ((Node.leaf token).text text).toList

/-- The scanner has come to this token. A word may be taken as a name. -/
structure IsAt (text : String) (token : Token) (s : Scanner) : Prop where
  kind : token.kind = s.kind ∨ token.kind = .identifier ∧ s.kind.isIdentifierOrKeyword
  chars : s.text.toList = token.chars text

/-- A reading of the text in this manner came to the token. -/
def ReadAs (text : String) (m : Manner) (token : Token) : Prop :=
  ∃ s : Scanner, s.ReadAs text m ∧ token.IsAt text s

/-- The two tokens, written next to each other and read in these manners, are read as these two
and nothing else. -/
def ReadApart (text : String) (m n : Manner) (first second : Token) : Prop :=
  let s := m.read (.ofText (.ofList (first.chars text ++ second.chars text)))
  first.IsAt text s ∧ second.IsAt text (n.read s) ∧ (n.read s).here.rest = []

/-- The first token may go on with the second one, or one of them is no whole token. -/
def mayFuse (text : String) (m : Manner) (first second : Token) : Bool :=
  let cs := first.chars text
  first.kind.isBroken cs || second.kind.isBroken (second.chars text) ||
    (second.chars text).head?.any fun c =>
      (m.read (.ofText (.ofList cs))).flags.unterminated || m.goesOn first.kind cs c

variable {text : String} {m n : Manner} {token first second : Token} {s t : Scanner}

theorem IsAt.isBroken (h : token.IsAt text s) (cs : List Char) :
    s.kind.isBroken cs = token.kind.isBroken cs := by
  rcases h.kind with hkind | ⟨hkind, hword⟩
  · rw [hkind]
  · rw [hkind, TokenKind.isBroken_of_word hword, TokenKind.isBroken_of_word rfl]

theorem IsAt.goesOn (h : token.IsAt text s) (m : Manner) (cs : List Char) (c : Char) :
    m.goesOn s.kind cs c = m.goesOn token.kind cs c := by
  rcases h.kind with hkind | ⟨hkind, hword⟩
  · rw [hkind]
  · rw [Manner.goesOn, Manner.goesOn, hkind, TokenKind.goesOn_of_word hword,
      TokenKind.goesOn_of_word rfl]

theorem Read.readAs (h : token.Read text) : ∃ m, token.ReadAs text m := by
  obtain ⟨s, hreached, hkind, hspan⟩ := h.reading
  have hchars : s.text.toList = token.chars text := by
    rw [chars, Node.text, Node.span, hspan, hreached.fits.split.2]
  obtain ⟨m, hread⟩ := hreached.readAs
  exact ⟨m, s, hread, hkind, hchars⟩

/-- A token of one text is read again in another, before anything that it does not go on with. -/
theorem ReadAs.again (h : token.ReadAs text m)
    (hwhole : token.kind.isBroken (token.chars text) = false) {text' : String}
    (hfits : t.Fits text')
    {back : List Char} (ht : t.here.rest = token.chars text ++ back) (hnext : ∀ c ∈ back.head?,
      (m.read (.ofText (.ofList (token.chars text)))).flags.unterminated = false ∧
        m.goesOn token.kind (token.chars text) c = false) :
    token.IsAt text (m.read t) ∧ (m.read t).here.rest = back := by
  obtain ⟨s, ⟨before, hbefore, hagrees⟩, hat⟩ := h
  have hsplit := (hbefore.read m).split.1
  have htext : (m.read before).text = s.text := by
    rw [Scanner.text, Scanner.text, hagrees.start, hagrees.here]
  rw [htext, hat.chars] at hsplit
  have hkind : (m.read before).kind.isBroken (token.chars text) = false := by
    rw [← hagrees.kind, hat.isBroken, hwhole]
  have halone : (m.read before).Repeats (m.read (.ofText (.ofList (token.chars text))))
      (token.chars text) [] := by
    refine Manner.read_local hsplit rfl hkind ?_ nofun
    simp [Scanner.ofText, Cursor.ofText]
  have hrepeats : (m.read before).Repeats (m.read t) (token.chars text) back := by
    refine Manner.read_local hsplit rfl hkind ht fun c hc => ?_
    rw [← halone.unterminated, ← hagrees.kind, hat.goesOn]
    exact hnext c hc
  have hchars := (hfits.read m).split.1
  rw [hrepeats.start, hrepeats.here] at hchars
  refine ⟨⟨?_, (List.append_cancel_right hchars).symm⟩, hrepeats.here⟩
  rw [hrepeats.kind, ← hagrees.kind]
  exact hat.kind

theorem readApart_of_not_mayFuse (hfirst : first.ReadAs text m) (hsecond : second.ReadAs text n)
    (h : mayFuse text m first second = false) : ReadApart text m n first second := by
  simp only [mayFuse, Bool.or_eq_false_iff] at h
  obtain ⟨⟨hwhole, hwhole'⟩, hgoes⟩ := h
  have hfits := Scanner.Fits.ofText (.ofList (first.chars text ++ second.chars text))
  have hhere : (Scanner.ofText (.ofList (first.chars text ++ second.chars text))).here.rest =
      first.chars text ++ second.chars text := String.toList_ofList
  obtain ⟨hat, hrest⟩ := hfirst.again hwhole hfits hhere fun c hc => by
    simpa [Option.mem_def.1 hc] using hgoes
  obtain ⟨hat', hrest'⟩ := hsecond.again hwhole' (hfits.read m)
    (hrest.trans (List.append_nil _).symm) fun _ hc => by cases hc
  exact ⟨hat, hat', hrest'⟩

end Token

end Untype
