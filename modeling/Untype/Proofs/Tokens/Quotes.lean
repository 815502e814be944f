-- Quoted texts are read back: the scanner finds one string in them, and its
-- value is the text that was quoted.
import Untype.Proofs.Tokens.Manners
import Untype.Text.Quoted
import Untype.Token.StringValue

namespace Untype

open Untype.Text

variable {s : Scanner}

/-! ## Characters in quotes -/

/-- The character stands for itself inside double quotes. -/
def IsVerbatim (c : Char) : Prop := c ≠ '\x22' ∧ c ≠ '\\' ∧ c ≠ '\n' ∧ c ≠ '\r'

/-- The letter after a backslash stands for a character, and needs nothing behind it. -/
def IsShortEscape (c letter : Char) : Prop :=
  (escapedLetter? letter).getD letter = c ∧ (letter ≠ '0' ∧ letter ≠ 'x' ∧ letter ≠ 'u') ∧
    isLineBreak letter = false

/-- How a character is written inside double quotes. -/
inductive IsEscape (c : Char) : List Char → Prop where
  | verbatim : IsVerbatim c → IsEscape c [c]
  | short {letter : Char} : IsShortEscape c letter → IsEscape c ['\\', letter]
  | code {high low : Char} : IsVerbatim high → IsVerbatim low → charOfHex? ['0', '0', high, low] =
    some c → IsEscape c ['\\', 'u', '0', '0', high, low]

theorem isVerbatim_hexDigit : ∀ n < 16, IsVerbatim (hexDigit n) := by
  unfold IsVerbatim
  decide

theorem charOfHex?_hexDigit :
    ∀ n < 32, charOfHex? ['0', '0', hexDigit (n / 16), hexDigit (n % 16)] =
      some (Char.ofNat n) := by
  decide

theorem isEscape_escape (c : Char) : IsEscape c (escape c) := by
  unfold escape
  iterate 7
    split
    · exact .short (by simp_all [IsShortEscape]; decide)
  split
  · rename_i hlow
    refine .code (isVerbatim_hexDigit _ (by omega)) (isVerbatim_hexDigit _ (by omega)) ?_
    rw [charOfHex?_hexDigit _ hlow, Char.ofNat_toNat]
  · exact .verbatim (by simp_all [IsVerbatim])

section Reading

variable {c : Char} {cs : List Char}

theorem stringEnd_verbatim (h : IsVerbatim c) (offset : Nat) (rest : List Char) :
    stringEnd '\x22' offset (c :: rest) = stringEnd '\x22' (offset + c.utf8Size) rest := by
  obtain ⟨hquote, hbackslash, hfeed, hreturn⟩ := h
  rw [stringEnd, if_neg (by simpa using hquote), if_neg (by simp [hfeed, hreturn])]
  · exact fun _ heq => absurd heq hbackslash
  · exact fun _ _ heq => absurd heq hbackslash

/-- The scanner passes over an escaped character. -/
theorem stringEnd_escape (h : IsEscape c cs) (offset : Nat) (rest : List Char) :
    stringEnd '\x22' offset (cs ++ rest) = stringEnd '\x22' (offset + byteLength cs) rest := by
  have hsign : ∀ {letter : Char}, isLineBreak letter = false → ∀ offset rest,
      stringEnd '\x22' offset ('\\' :: letter :: rest) =
        stringEnd '\x22' (offset + ('\\'.utf8Size + letter.utf8Size)) rest := by
    intro letter hletter offset rest
    rw [stringEnd, Nat.add_assoc]
    · rfl
    · rintro _ rfl
      cases hletter
  cases h with
  | verbatim hverbatim => simpa [byteLength] using stringEnd_verbatim hverbatim offset rest
  | short hshort => simpa [byteLength] using hsign hshort.2.2 offset rest
  | code hhigh hlow =>
    have hzero : IsVerbatim '0' := by unfold IsVerbatim; decide
    simp only [List.cons_append, List.nil_append]
    rw [hsign rfl, stringEnd_verbatim hzero, stringEnd_verbatim hzero, stringEnd_verbatim hhigh,
      stringEnd_verbatim hlow]
    simp only [byteLength, List.foldr_cons, List.foldr_nil, Nat.add_assoc]
    rfl

theorem unescape_escape (h : IsEscape c cs) (rest : List Char) :
    unescape none (cs ++ rest) = (unescape none rest).map (c :: ·) := by
  cases h with
  | verbatim hverbatim =>
    rw [List.singleton_append, unescape]
    all_goals simp [hverbatim.2.1]
  | short hshort =>
    obtain ⟨rfl, hshort, honLine⟩ := hshort
    rw [List.cons_append, List.singleton_append, unescape]
    all_goals simp_all [isLineBreak]
  | code _ _ hcode =>
    simp only [List.cons_append, List.nil_append]
    rw [unescape, hcode]
    simp

end Reading

/-! ## Quoted texts -/

theorem stringEnd_quoted (text rest : List Char) (offset : Nat) :
    stringEnd '\x22' offset (text.flatMap escape ++ '\x22' :: rest) =
      ⟨⟨offset + byteLength (text.flatMap escape) + 1, rest⟩, true⟩ := by
  induction text generalizing offset with
  | nil => simp [stringEnd, byteLength]
  | cons c text ih =>
    rw [List.flatMap_cons, List.append_assoc, stringEnd_escape (isEscape_escape c), ih,
      byteLength_append, Nat.add_assoc offset]

theorem unescape_quoted (text : List Char) : unescape none (text.flatMap escape) = some text := by
  induction text with
  | nil => simp [unescape]
  | cons c text ih =>
    rw [List.flatMap_cons, unescape_escape (isEscape_escape c), ih, Option.map_some]

/-- The first token of a quoted text is all of it. -/
theorem scan_quote (text : String) : (Scanner.ofText (quote text)).scan =
    { full := .ofText (quote text), start := .ofText (quote text),
      here := ⟨(quote text).utf8ByteSize, []⟩, kind := .stringLiteral, flags := {},
      findings := [] } := by
  have hchars : (quote text).toList = '\x22' :: (text.toList.flatMap escape ++ ['\x22']) := by
    simp [quote]
  have hsize : (quote text).utf8ByteSize = 0 + 1 + byteLength (text.toList.flatMap escape) + 1 := by
    rw [← byteLength_toList, hchars, byteLength_cons, byteLength_append, Nat.zero_add,
      Nat.add_assoc]
    rfl
  have hsolid : triviaEnd .between {} 0 (quote text).toList =
      ⟨⟨0, (quote text).toList⟩, {}, []⟩ := by
    have hsolid : IsSolid (quote text).toList := hchars ▸ ⟨rfl, by simp⟩
    exact triviaEnd_of_isSolid hsolid {} (by simp [hchars])
  simp only [Scanner.scan, Scanner.ofText, Cursor.ofText, hsolid]
  rw [readToken, hchars]
  simp only [beq_self_eq_true, Bool.true_or, ↓reduceIte, readString, List.drop_one, List.tail_cons,
    stringEnd_quoted, hsize, List.append_nil]

theorem scan_end (h : s.here.rest = []) :
    s.scan.kind = .endOfFile ∧ s.scan.trivia = "" ∧ s.scan.findings = s.findings := by
  obtain ⟨full, start, ⟨offset, rest⟩, kind, flags, findings⟩ := s
  subst h
  simp [Scanner.scan, triviaEnd, readToken, Scanner.trivia, Cursor.textTo, takeBytes]

theorem scanAll_whole (hrest : s.scan.here.rest = []) (hkind : s.scan.kind ≠ .endOfFile)
    (hsome : s.here.rest ≠ []) : s.scanAll = [s.scan, s.scan.scan] := by
  obtain ⟨n, hfuel⟩ := Nat.exists_eq_succ_of_ne_zero (mt List.length_eq_zero_iff.1 hsome)
  rw [Scanner.scanAll, hfuel, Scanner.scanAllFrom, if_neg (by simpa using hkind),
    Scanner.scanAllFrom, if_pos (by simp [scan_end hrest])]

/-- A quoted text is one string for the scanner, from its start to its end and without a fault, and
nothing follows. Its value is the text. -/
theorem quote_reads_back (text : String) :
    ∃ token last : Scanner, (Scanner.ofText (quote text)).scanAll = [token, last] ∧
      token.kind = .stringLiteral ∧ token.trivia = "" ∧ token.text = quote text ∧
      token.start.offset = 0 ∧ token.here.offset = (quote text).utf8ByteSize ∧
      token.flags.unterminated = false ∧ token.findings = [] ∧
      last.kind = .endOfFile ∧ last.trivia = "" ∧ last.findings = [] ∧
      stringValue? (quote text) = some text := by
  have hscan := scan_quote text
  have hrest : (Scanner.ofText (quote text)).scan.here.rest = [] := by rw [hscan]
  have hsome : (Scanner.ofText (quote text)).here.rest ≠ [] := by
    simp [Scanner.ofText, Cursor.ofText, quote]
  have htext : (Scanner.ofText (quote text)).scan.text = quote text := by
    rw [Scanner.text, hscan]
    refine (Cursor.textTo_of_append (List.append_nil _).symm ?_).trans String.ofList_toList
    simp [Cursor.ofText, byteLength_toList]
  have hvalue : stringValue? (quote text) = some text := by
    have hlast : (text.toList.flatMap escape ++ ['\x22']).getLast? = some '\x22' := by simp
    simp [stringValue?, quote, hlast, unescape_quoted]
  obtain ⟨hkind, htrivia, hfindings⟩ := scan_end hrest
  refine ⟨_, _, scanAll_whole hrest (by simp [hscan]) hsome, by rw [hscan], ?_, htext, ?_⟩
  · rw [Scanner.trivia, hscan]
    exact Cursor.textTo_of_append (List.nil_append _).symm (Nat.add_zero _).symm
  · refine ⟨by rw [hscan]; rfl, by rw [hscan], by rw [hscan], by rw [hscan], hkind, htrivia,
      ?_, hvalue⟩
    rw [hfindings, hscan]

end Untype
