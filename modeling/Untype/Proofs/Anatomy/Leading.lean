-- Where a text is read from. The first leaf there is the token at which the
-- reader stands, unless that leaf could start nothing but an expression.
import Untype.Grammar.SourceFile
import Untype.Proofs.Shapes.Nodes
import Untype.Proofs.Tokens.Findings

namespace Untype

open Node Grammar Grammar.Parser

namespace Grammar

variable {s : Scanner} {leaf : Node}

/-- A block or the declaration of a function or a class may start with such a token. -/
def startsOther : TokenKind → Bool
  | .openBrace | .functionKeyword | .classKeyword | .exportKeyword | .asyncKeyword => true
  | _ => false

/-- The leaf is a token, and the one at which the scanner stands if something other than an
expression may start with it. -/
def Leads (s : Scanner) (leaf : Node) : Prop :=
  ∃ kind t, leaf = leafOf kind t ∧ (startsOther kind → kind = s.kind ∧ t = s)

theorem Leads.not_isToken {kind : TokenKind} (h : Leads s leaf) (hother : startsOther kind)
    (hkind : s.kind ≠ kind) : leaf.isToken kind = false := by
  obtain ⟨kind', t, rfl, hsame⟩ := h
  rw [← Bool.not_eq_true]
  intro htoken
  obtain rfl : kind' = kind := by simpa [isToken, token?, leafOf] using htoken
  exact hkind (hsame hother).1.symm

/-- Where no block and no declaration starts, an expression does. -/
theorem Leads.startsExpression {text : String} (h : Leads s leaf) (hreached : s.Reached text)
    (hblock : s.kind ≠ .openBrace) (hnone : s.startsDeclaration = false) :
    leaf.StartsExpression text := by
  have hdeclares : s.kind ≠ .functionKeyword ∧ s.kind ≠ .classKeyword ∧
      s.kind ≠ .exportKeyword := by
    refine ⟨?_, ?_, ?_⟩
    all_goals
      intro hkind
      simp [Scanner.startsDeclaration, Scanner.tokensAhead, Scanner.startsDeclarationFrom,
        hkind] at hnone
  refine ⟨h.not_isToken rfl hblock, h.not_isToken rfl hdeclares.1, h.not_isToken rfl hdeclares.2.1,
    h.not_isToken rfl hdeclares.2.2, ?_⟩
  rintro hasync ⟨t, ht, hplace, hfunction, hline⟩
  obtain ⟨kind, s', rfl, hsame⟩ := h
  obtain rfl : kind = .asyncKeyword := by simpa [isToken, token?, leafOf] using hasync
  obtain ⟨hkind, rfl⟩ := hsame rfl
  have hhere : s'.here = t.here := hreached.fits.toHere.eq_of_offset ht.fits.toHere hplace
  have hscan : s'.scan.kind = t.scan.kind ∧ s'.scan.afterLineBreak = t.scan.afterLineBreak := by
    simp [Scanner.scan, Scanner.afterLineBreak, hhere]
  rw [hfunction, hline] at hscan
  simp [Scanner.startsDeclaration, Scanner.tokensAhead, Scanner.startsDeclarationFrom, ← hkind,
    hscan] at hnone

end Grammar

/-! ## Readers -/

/-- A text, and where it is read from. -/
structure Source where
  text : String
  start : Scanner

instance : CoeOut Source String := ⟨Source.text⟩

/-- Whoever reads the text from there comes to the scanner. As long as no token is taken, a token
that may start something other than an expression is the one at which the reader stands. -/
structure Source.Reaches (source : Source) (s : Scanner) : Prop where
  reached : s.Reached source
  le : source.start.full.offset ≤ s.full.offset
  same : s.full.offset = source.start.full.offset → startsOther s.kind → s = source.start

namespace Source.Reaches

variable {source : Source} {s t : Scanner} {advance : Scanner → Scanner}

theorem of_reached {text : String} (h : s.Reached text) : Reaches ⟨text, s⟩ s :=
  ⟨h, Nat.le_refl _, fun _ _ => rfl⟩

/-- No token that is read after another one stands first. -/
theorem next (h : source.Reaches s) (ht : t.Reached source) (hfull : t.full = s.here) :
    source.Reaches t := by
  have hle := h.le
  have hstart := h.reached.fits.start.le
  have hhere := h.reached.fits.here.le
  refine ⟨ht, by rw [hfull]; omega, fun hsame hother => ?_⟩
  rw [hfull] at hsame
  have hkind : s.kind = .endOfFile := by
    by_contra hkind
    have hmoves := h.reached.moves hkind
    omega
  have hmoves : t.start.offset < t.here.offset :=
    ht.moves fun hend => by rw [hend] at hother; cases hother
  have hlength := (ht.fits.start.trans ht.fits.here).length_lt
    (Nat.lt_of_le_of_lt ht.fits.start.le hmoves)
  rw [hfull, h.reached.fits.ends hkind] at hlength
  cases hlength

theorem scan (h : source.Reaches s) : source.Reaches s.scan := h.next h.reached.scan rfl

theorem scanJsx (h : source.Reaches s) : source.Reaches s.scanJsx :=
  h.next h.reached.scanJsx s.scanJsx_full

theorem reread (h : source.Reaches s) (hadvance : Scanner.Rereads advance) :
    source.Reaches (advance s) := by
  have hkind : advance s = s ∨ startsOther (advance s).kind = false := by
    cases hadvance <;> simp only [Scanner.rescanSlash, Scanner.rescanTemplate,
      Scanner.rescanGreater, Scanner.rescanJsxName, Scanner.rescanJsxValue, Scanner.reread,
      readTemplate] <;> repeat' split
    all_goals first | exact .inl rfl | exact .inr rfl
  rcases hkind with hsame | hother
  · rwa [hsame]
  · refine ⟨h.reached.reread hadvance, ?_, fun _ hkind => by cases hother.symm.trans hkind⟩
    rw [(hadvance.place s).1]
    exact h.le

end Source.Reaches

end Untype
