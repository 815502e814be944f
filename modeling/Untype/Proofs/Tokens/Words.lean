-- The characters of words: parts of names and of escapes, and hyphens.
import Untype.Proofs.Tokens.Apart

namespace Untype

open Untype.Text Cursor

/-- The character is a part of a name or of an escape, or a hyphen. -/
def isSpellingChar (c : Char) : Bool :=
  isNamePart c || c == '\\' || c == '\x7b' || c == '\x7d' || c == '-'

theorem isSpellingChar_of_isNamePart {c : Char} (h : isNamePart c) : isSpellingChar c := by
  simp [isSpellingChar, h]

theorem escapeExtent_chars (cs : List Char) :
    ∀ c ∈ cs.take (escapeExtent cs).1, isSpellingChar c := by
  have hdigit : ∀ c, isHexDigit c ∨ c = '_' → isSpellingChar c := by
    rintro c (hc | rfl)
    · exact isSpellingChar_of_isNamePart (isNamePart_of_isHexDigit hc)
    · decide
  unfold escapeExtent
  split
  · rename_i rest
    have hcount : digitCount isHexDigit false (rest.take (digitCount isHexDigit false rest) ++
        rest.drop (digitCount isHexDigit false rest)) =
          (rest.take (digitCount isHexDigit false rest)).length := by
      rw [List.take_append_drop, List.length_take_of_le (digitCount_le _ _ _)]
    have hdigits : ∀ c ∈ rest.take (digitCount isHexDigit false rest), isSpellingChar c :=
      fun c hc => hdigit c (digitCount_all hcount c hc)
    dsimp only
    split
    · rename_i hclose
      rw [List.take_succ_cons, List.take_add_one, ← List.head?_drop, beq_iff_eq.1 hclose]
      refine List.forall_mem_cons.2 ⟨by decide, List.forall_mem_append.2 ⟨hdigits,
        List.all_eq_true.1 (by decide)⟩⟩
    · exact List.forall_mem_cons.2 ⟨by decide, hdigits⟩
  · dsimp only
    intro c hc
    have hprefix := List.takeWhile_prefix (l := cs) isHexDigit
    refine hdigit c (.inl (List.all_eq_true.1 (List.all_takeWhile (l := cs)) c ?_))
    rw [List.prefix_iff_eq_take.1 hprefix]
    exact List.take_subset_take_left _ (Nat.min_le_right _ _) hc

/-- A name is passed over with its escapes. -/
theorem nameEndFrom_chars (fuel : Nat) (name : NameEnd) :
    ∃ cs, name.stop.rest = cs ++ (nameEndFrom fuel name).stop.rest ∧ ∀ c ∈ cs,
      isSpellingChar c := by
  induction fuel generalizing name with
  | zero => exact ⟨[], rfl, by simp⟩
  | succ fuel ih =>
    rw [nameEndFrom]
    split
    · exact ⟨[], rfl, by simp⟩
    · rename_i c rest hrest
      have hstep : ∀ count next, (∀ c ∈ name.stop.rest.take count, isSpellingChar c) →
          next.stop = name.stop.skip count → ∃ cs, name.stop.rest =
            cs ++ (nameEndFrom fuel next).stop.rest ∧ ∀ c ∈ cs, isSpellingChar c := by
        intro count next hpassed hnext
        obtain ⟨cs, hcs, hnone⟩ := ih next
        rw [hnext, skip_rest] at hcs
        exact ⟨name.stop.rest.take count ++ cs, by rw [List.append_assoc, ← hcs,
          List.take_append_drop], List.forall_mem_append.2 ⟨hpassed, hnone⟩⟩
      split
      · rename_i hpart
        refine hstep 1 _ ?_ rfl
        rw [hrest]
        exact List.forall_mem_singleton.2 (isSpellingChar_of_isNamePart hpart)
      · split
        · rename_i hescape
          simp only [Bool.and_eq_true, beq_iff_eq] at hescape
          obtain ⟨rfl, hu⟩ := hescape
          cases rest with
          | nil => cases hu
          | cons d more =>
            obtain rfl := Option.some.inj hu
            refine hstep ((escapeExtent more).1 + 2) _ ?_ rfl
            rw [hrest]
            exact List.forall_mem_cons.2 ⟨by decide, List.forall_mem_cons.2 ⟨by decide,
              escapeExtent_chars more⟩⟩
        · exact ⟨[], by simp, by simp⟩

namespace Scanner

variable {s : Scanner}

/-- Only names become other words when they are read anew. -/
theorem rescan_of_word {m : Manner} (hm : m ≠ .jsxName)
    (h : (m.rescan s).kind.isIdentifierOrKeyword) : m.rescan s = s := by
  cases happlies : m.applies s.kind with
  | false => exact m.rescan_of_not_applies happlies
  | true =>
    suffices hother : (m.rescan s).kind.isIdentifierOrKeyword = false by
      rw [hother] at h
      cases h
    cases m with
    | plain | jsx => cases happlies
    | slash => exact congrArg _ (rescanSlash_eq (by simpa [Manner.applies] using happlies)).2.1
    | template =>
      have hkind : (s.kind == .closeBrace) := happlies
      rw [Manner.rescan, rescanTemplate, if_pos hkind, reread]
      dsimp only
      unfold readTemplate
      dsimp only
      repeat' split
      all_goals rfl
    | greater =>
      refine (congrArg _ (rescanGreater_eq (by simpa [Manner.applies] using happlies)).2.1).trans ?_
      fun_cases joinGreater s.here.rest <;> rfl
    | jsxName => exact absurd rfl hm
    | jsxValue => exact congrArg _ (rescanJsxValue_kind (by simpa [Manner.applies] using happlies))

/-- The current token is made of such characters. -/
def Spelled (s : Scanner) : Prop :=
  ∃ cs, s.start.rest = cs ++ s.here.rest ∧ ∀ c ∈ cs, isSpellingChar c

theorem scan_spelled (h : s.scan.kind.isIdentifierOrKeyword) : s.scan.Spelled := by
  obtain ⟨flags, -, hhere, hkind, -⟩ := scan_finds s
  have hname := readToken_of_word (hkind ▸ h)
  rw [hkind, hname] at h
  rw [Spelled, hhere, hname]
  unfold readName at h ⊢
  dsimp only at h ⊢
  split at h
  · cases h
  · rename_i hmoves
    rw [if_neg hmoves]
    exact nameEndFrom_chars _ ⟨s.scan.start, false, []⟩

/-- A token that is read anew is a word only if it was one, and hyphens come behind it at most. -/
theorem rescan_spelled (m : Manner) (h : s.kind.isIdentifierOrKeyword → s.Spelled)
    (hword : (m.rescan s).kind.isIdentifierOrKeyword) : (m.rescan s).Spelled := by
  by_cases hname : m = .jsxName ∧ s.kind.isIdentifierOrKeyword
  · obtain ⟨rfl, hname⟩ := hname
    obtain ⟨cs, hcs, hspelled⟩ := h hname
    obtain ⟨hstart, -, hhere, -⟩ := rescanJsxName_eq hname
    refine ⟨cs ++ s.here.rest.takeWhile fun c => c == '-' || isNamePart c, ?_, ?_⟩
    · rw [Manner.rescan, hstart, hhere, List.append_assoc, List.takeWhile_append_dropWhile, ← hcs]
    · refine List.forall_mem_append.2 ⟨hspelled, fun c hc => ?_⟩
      rcases Bool.or_eq_true_iff.1 (List.all_eq_true.1 List.all_takeWhile c hc) with hhyphen | hpart
      · rw [beq_iff_eq.1 hhyphen]
        decide
      · exact isSpellingChar_of_isNamePart hpart
  · have hsame : m.rescan s = s := by
      by_cases hm : m = .jsxName
      · subst hm
        exact Manner.rescan_of_not_applies (Bool.eq_false_iff.2 fun h => hname ⟨rfl, h⟩)
      · exact rescan_of_word hm hword
    rw [hsame] at hword ⊢
    exact h hword

theorem Reached.word_chars {text : String} (h : Reached text s)
    (hword : s.kind.isIdentifierOrKeyword) :
    ∀ c ∈ s.text.toList, isSpellingChar c := by
  obtain ⟨m, before, -, hagrees⟩ := h.readAs
  have hspelled : (m.read before).Spelled := by
    rw [hagrees.kind] at hword
    unfold Manner.read at hword ⊢
    split at hword
    · have hother : (jsxEnd before.here.rest).2.isIdentifierOrKeyword = false := by
        fun_cases jsxEnd before.here.rest <;> rfl
      rw [(scanJsx_eq before).2.2.2, hother] at hword
      cases hword
    · rw [if_neg ‹_›]
      exact rescan_spelled m scan_spelled hword
  obtain ⟨cs, hcs, hspelled⟩ := hspelled
  rw [← hagrees.start, ← hagrees.here, h.fits.split.1] at hcs
  rwa [List.append_cancel_right hcs]

end Scanner

namespace Token

theorem Read.identifier_chars {text : String} {token : Token} (h : token.Read text)
    (hkind : token.kind = .identifier) : ∀ c ∈ token.chars text, isSpellingChar c := by
  obtain ⟨s, hreached, hword, hspan⟩ := h.reading
  rw [chars, Node.text, Node.span, hspan, hreached.fits.split.2]
  refine hreached.word_chars ?_
  rcases hword with hsame | ⟨-, hword⟩
  · rw [← hsame, hkind]
    rfl
  · exact hword

end Token

end Untype
