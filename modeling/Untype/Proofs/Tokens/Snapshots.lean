-- Snapshots of a scanner. Of what was found they keep the number, which is
-- enough to come back unless findings of that time have gone since.
import Untype.Proofs.Tokens.Apart
import Untype.Proofs.Tokens.Findings

namespace Untype

open Untype.Text

namespace Manner

variable {m : Manner} {s : Scanner}

/-- The scanner goes on to the next token, or reads the current one anew. -/
def advance : Manner → Scanner → Scanner
  | plain => Scanner.scan
  | jsx => Scanner.scanJsx
  | m => m.rescan

/-- The scanner stays at its token. -/
def stays (m : Manner) : Bool := m != plain && m != jsx

theorem advance_of_stays (h : m.stays) : m.advance = m.rescan ∧ Scanner.Rereads m.advance := by
  cases m with
  | plain | jsx => cases h
  | slash | template | greater | jsxName | jsxValue => exact ⟨rfl, by constructor⟩

theorem eq_or_stays (m : Manner) : m = plain ∨ m = jsx ∨ m.stays := by cases m <;> simp [stays]

theorem prefix_advance (hm : m ≠ jsxValue) (s : Scanner) :
    s.findings <+: (m.advance s).findings := by
  cases m with
  | plain => exact List.prefix_append _ _
  | jsx => exact (Scanner.scanJsx_findings s).symm ▸ List.prefix_rfl
  | jsxValue => exact absurd rfl hm
  | slash | template | greater | jsxName =>
    simp only [advance, rescan, Scanner.rescanSlash, Scanner.rescanTemplate, Scanner.rescanGreater,
      Scanner.rescanJsxName]
    repeat' split
    all_goals first | exact List.prefix_rfl | exact List.prefix_append _ _

theorem prefix_rescanJsxValue {findings : List Finding} (h : findings <+: s.findings)
    (hbefore : s.kind = .stringLiteral → ∀ finding ∈ findings, finding.start < s.start.offset) :
    findings <+: s.rescanJsxValue.findings := by
  unfold Scanner.rescanJsxValue
  split
  · rename_i hkind _
    have hkept := h.filter (fun finding => decide (finding.start < s.start.offset))
    rw [List.filter_eq_self.2 (by simpa using hbefore hkind)] at hkept
    dsimp only
    split <;> exact hkept.trans (List.prefix_append _ _)
  · exact h

end Manner

namespace Scanner

open Manner

variable {text : String} {s b : Scanner} {ways : List Manner}

/-- The scanner after several readings. -/
def advanceAll (s : Scanner) (ways : List Manner) : Scanner :=
  ways.foldl (fun s m => m.advance s) s

theorem prefix_advanceAll {findings : List Finding} (h : findings <+: s.findings)
    (hbefore : ∀ front back, ways = front ++ jsxValue :: back →
      (s.advanceAll front).kind = .stringLiteral →
      ∀ finding ∈ findings, finding.start < (s.advanceAll front).start.offset) :
    findings <+: (s.advanceAll ways).findings := by
  induction ways generalizing s with
  | nil => exact h
  | cons m ways ih =>
    refine ih ?_ fun front back hways => hbefore (m :: front) back (by rw [hways]; rfl)
    by_cases hm : m = jsxValue
    · subst hm
      exact prefix_rescanJsxValue h (hbefore [] ways rfl)
    · exact h.trans (prefix_advance hm s)

/-! ## Scanners that did not come back before -/

/-- The scanner is in the text, and what it found stands in order. -/
structure Sound (text : String) (s : Scanner) : Prop where
  fits : s.Fits text
  orderly : s.Orderly

theorem Sound.advance (h : s.Sound text) (m : Manner) : (m.advance s).Sound text := by
  rcases m.eq_or_stays with rfl | rfl | hm
  · exact ⟨h.fits.scan, h.orderly.scan⟩
  · exact ⟨h.fits.scanJsx, h.orderly.scanJsx h.fits.scanJsx⟩
  · have hfits := (advance_of_stays hm).2.fits h.fits
    exact ⟨hfits, h.orderly.reread (advance_of_stays hm).2 hfits⟩

theorem Sound.advanceAll (h : s.Sound text) (ways : List Manner) :
    (s.advanceAll ways).Sound text := by
  induction ways generalizing s with
  | nil => exact h
  | cons m ways ih => exact ih (h.advance m)

theorem Beyond.advanceAll (h : Beyond b s) (hb : b.Orderly) (hs : s.Sound text)
    (ways : List Manner) : Beyond b (s.advanceAll ways) := by
  induction ways generalizing s with
  | nil => exact h
  | cons m ways ih =>
    refine ih ?_ (hs.advance m)
    rcases m.eq_or_stays with rfl | rfl | hm
    · exact h.trans (beyond_scan s) hs.fits
    · exact h.trans (beyond_scanJsx s) hs.fits
    · exact h.reread hb hs.orderly (advance_of_stays hm).2

/-- A string that is read anew is the value of an attribute, or comes out the same. -/
theorem advanceAll_string (h : s.kind = .stringLiteral) (hways : ∀ m ∈ ways, m.stays) :
    s.advanceAll ways = if jsxValue ∈ ways then s.rescanJsxValue else s := by
  induction ways generalizing s with
  | nil => rfl
  | cons m ways ih =>
    obtain ⟨hm, hrest⟩ := List.forall_mem_cons.1 hways
    change (m.advance s).advanceAll ways = _
    rw [(advance_of_stays hm).1]
    by_cases hvalue : m = jsxValue
    · subst hvalue
      rw [rescan, ih (rescanJsxValue_kind h) hrest, if_pos List.mem_cons_self]
      split
      · exact rescanJsxValue_again h
      · rfl
    · have happlies : m.applies s.kind = false := by
        rw [h]
        cases m with
        | jsxValue => exact absurd rfl hvalue
        | _ => rfl
      rw [rescan_of_not_applies happlies, ih h hrest]
      simp [List.mem_cons, Ne.symm hvalue]

/-- What is no string does not become one, and all that was found in it stays. -/
theorem prefix_advanceAll_of_stays (hs : s.Sound text) (h : s.kind ≠ .stringLiteral)
    (hways : ∀ m ∈ ways, m.stays) : s.findings <+: (s.advanceAll ways).findings := by
  induction ways generalizing s with
  | nil => exact List.prefix_rfl
  | cons m ways ih =>
    obtain ⟨hm, hrest⟩ := List.forall_mem_cons.1 hways
    have hkind : (m.advance s).kind ≠ .stringLiteral := by
      rcases hs.orderly.reread_anew (advance_of_stays hm).2 with hsame | hanew
      · rwa [hsame]
      · exact fun hkind => h (hanew.string hkind)
    refine List.IsPrefix.trans ?_ (ih (hs.advance m) hkind hrest)
    by_cases hvalue : m = jsxValue
    · subst hvalue
      exact prefix_rescanJsxValue List.prefix_rfl fun hstring => absurd hstring h
    · exact prefix_advance hvalue s

/-- While the scanner stays at its token, what counts is whether a string was read as the value of
an attribute. No finding of the token lies behind it after that. -/
theorem prefix_of_stays (hs : s.Sound text) (hways : ∀ m ∈ ways, m.stays) :
    (s.findings <+: (s.advanceAll ways).findings ↔
      (jsxValue ∈ ways → s.findings <+: s.rescanJsxValue.findings)) ∧
    ∀ finding ∈ s.findings, finding.start < (s.advanceAll ways).here.offset := by
  by_cases hkind : s.kind = .stringLiteral
  · have hstart : ∀ {t : Scanner}, t.Fits text → t.kind = .stringLiteral → t.start = s.start →
        ∀ finding ∈ s.findings, finding.start < t.here.offset := by
      intro t hfits hstring hstart finding hfinding
      have hle := hs.orderly.string hkind finding hfinding
      have hlt := hfits.moves (by simp [hstring]) (by simp [hstring])
      rw [hstart] at hlt
      exact Nat.lt_of_le_of_lt hle hlt
    rw [advanceAll_string hkind hways]
    split
    · rename_i hmem
      exact ⟨by simp [hmem], hstart hs.fits.rescanJsxValue (rescanJsxValue_kind hkind)
        (Rereads.jsxValue.place s).2⟩
    · rename_i hmem
      exact ⟨by simp [hmem], hstart hs.fits hkind rfl⟩
  · have hkept := prefix_advanceAll_of_stays hs hkind hways
    refine ⟨iff_of_true hkept fun _ => ?_, fun finding hfinding => ?_⟩
    · exact prefix_rescanJsxValue List.prefix_rfl fun hstring => absurd hstring hkind
    · exact ((hs.advanceAll ways).orderly.findings.between finding (hkept.subset hfinding)).2

/-- Behind the token nothing is lost, and nothing is found that had been found before. -/
theorem prefix_iff_of_beyond (hs : s.Sound text) {t : Scanner} (h : Beyond b t)
    (hbefore : ∀ finding ∈ s.findings, finding.start < b.here.offset) :
    s.findings <+: t.findings ↔ s.findings <+: b.findings := by
  refine ⟨fun hkept => ?_, fun hkept => hkept.trans h.findings⟩
  rcases List.prefix_or_prefix_of_prefix hkept h.findings with hprefix | ⟨others, hothers⟩
  · exact hprefix
  · have hincreasing := hs.orderly.findings.increasing
    cases others with
    | nil => exact hothers ▸ by simp
    | cons other others =>
      have hother : other ∈ s.findings := hothers ▸ by simp
      have hfound := h.later other (hkept.subset hother) (hbefore other hother)
      rw [← hothers] at hincreasing
      exact absurd ((List.pairwise_append.1 hincreasing).2.2 other hfound other List.mem_cons_self)
        (Nat.lt_irrefl _)

theorem restore_advanceAll (hs : s.Sound text) (ways : List Manner) :
    (s.advanceAll ways).restore s.save = s ↔
      (jsxValue ∈ ways.takeWhile stays → s.rescanJsxValue.restore s.save = s) := by
  have hfront : ∀ m ∈ ways.takeWhile stays, m.stays := List.all_eq_true.1 List.all_takeWhile
  obtain ⟨hiff, hbefore⟩ := prefix_of_stays hs hfront
  rw [restore_save, restore_save, ← hiff]
  have hu := hs.advanceAll (ways.takeWhile stays)
  have hsplit : s.advanceAll ways =
      (s.advanceAll (ways.takeWhile stays)).advanceAll (ways.dropWhile stays) := by
    rw [advanceAll, advanceAll, advanceAll, ← List.foldl_append, List.takeWhile_append_dropWhile]
  rw [hsplit]
  generalize s.advanceAll (ways.takeWhile stays) = u at hbefore hu
  cases hrest : ways.dropWhile stays with
  | nil => exact .rfl
  | cons m rest =>
    -- The first reading that leaves the token goes on to the next one.
    have hleaves : m.stays = false := by
      have hhead := List.head?_dropWhile_not stays ways
      simpa [hrest] using hhead
    refine prefix_iff_of_beyond hs (Beyond.advanceAll ?_ hu.orderly (hu.advance m) rest) hbefore
    rcases m.eq_or_stays with rfl | rfl | hm
    · exact beyond_scan u
    · exact beyond_scanJsx u
    · cases hleaves.symm.trans hm

end Scanner

/-- A snapshot brings back the place and the token of any scanner, however it is read on. It brings
back what was found, too, unless a string is read anew as the value of an attribute that does not
start behind all of it. For a scanner that was only read on so far, this is the string at which the
snapshot was taken: the scanner comes back as it was if and only if its token is not read so before
the next one, or to read it so and to come back at once changes nothing. -/
theorem Scanner.restore_returns (s : Scanner) (ways : List Manner) :
    ((s.advanceAll ways).restore s.save).Agrees s ∧
    ((s.advanceAll ways).restore s.save = s ∨
      ∃ front back, ways = front ++ .jsxValue :: back ∧
        (s.advanceAll front).kind = .stringLiteral ∧
        ∃ finding ∈ s.findings, (s.advanceAll front).start.offset ≤ finding.start) ∧
    ∀ text before, s = (Scanner.ofText text).advanceAll before →
      ((s.advanceAll ways).restore s.save = s ↔
        (.jsxValue ∈ ways.takeWhile Manner.stays → s.rescanJsxValue.restore s.save = s)) := by
  refine ⟨⟨rfl, rfl, rfl, rfl, rfl⟩, ?_, fun text before hs => ?_⟩
  · refine Classical.or_iff_not_imp_right.2 fun hnone => ?_
    refine restore_save.2 (prefix_advanceAll List.prefix_rfl ?_)
    intro front back hways hkind finding hfinding
    refine Nat.lt_of_not_le fun hle => hnone ?_
    exact ⟨front, back, hways, hkind, finding, hfinding, hle⟩
  · have hstart : (Scanner.ofText text).Sound text := ⟨.ofText text, .ofText text⟩
    exact restore_advanceAll (hs ▸ hstart.advanceAll before) ways

/-- A string that a line break cuts off is no fault as the value of an attribute, and what was found
does not come back. -/
theorem Scanner.restore_forgets :
    let s := (Scanner.ofText "\"a\nb\"").scan
    s.findings = [⟨0, 2, .unterminatedString⟩] ∧
      (s.rescanJsxValue.restore s.save).findings = [] := by
  decide +kernel

end Untype
