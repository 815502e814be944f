-- A list from which elements go is a list again: one comma between any two
-- elements that stay, none in front of the first, and one behind the last if
-- the list had one there.
import Untype.Erasure.Plan

namespace Untype.Erasure

/-- A child and what happens to it. -/
abbrev Judged := Node × Action

namespace Judged

def isComma (pair : Judged) : Bool := pair.1.isToken .comma

def isKept (pair : Judged) : Bool := pair.2.isKeep

/-- An element of a list. It stays, or goes as one. -/
def IsElement (pair : Judged) : Prop :=
  pair.isComma = false ∧ (pair.isKept ∨ pair.2 = .remove .unit)

/-- What stands around a list, and stays. -/
def IsBracket (pair : Judged) : Prop := pair.isComma = false ∧ pair.isKept

end Judged

/-- Elements with a comma between any two of them, and perhaps one more behind the last. The commas
stay. -/
inductive IsList : List Judged → (elements : List Judged) → (trailing : Bool) → Prop where
  | nil : IsList [] [] false
  | last {element : Judged} : element.IsElement → IsList [element] [element] false
  | comma {element comma : Judged} {rest elements : List Judged} {trailing : Bool} :
    element.IsElement → comma.isComma → comma.isKept →
    IsList rest elements trailing →
    IsList (element :: comma :: rest) (element :: elements) (trailing || elements.isEmpty)

/-- The children that stay when the commas are judged, too. The one in front of the others is
`previous`. -/
def keptWith (previous : Option Judged) (pairs : List Judged) : List Judged :=
  (((previous.toList ++ pairs).map (·.1)).zip
    ((dropCommas (previous.map fun pair => (pair.isComma, pair.2))
      (pairs.map fun pair => (pair.isComma, pair.2))).map (·.2))).filter Judged.isKept

variable {pair comma element : Judged} {pairs : List Judged}

/-! ## One child after the other -/

theorem dropCommas_some {previous : Bool × Action} (pairs : List (Bool × Action))
    (h : ∀ task before after, previous ≠ (true, .keep task before after)) :
    dropCommas (some previous) pairs = previous :: dropCommas none pairs := by
  cases pairs with
  | nil => rfl
  | cons pair rest =>
    unfold dropCommas
    split
    · split
      · exact absurd (Option.some.inj ‹_›) (h _ _ _)
      · split <;> rfl
    · rfl

theorem exists_of_isKept (h : pair.isKept) :
    ∃ task before after, pair.2 = .keep task before after := by
  obtain ⟨child, action⟩ := pair
  cases action with
  | keep task before after => exact ⟨task, before, after, rfl⟩
  | _ => cases h

/-- Nothing takes a child in front of one that stays. -/
theorem keptWith_before (hkept : pair.isKept) (h : ∀ next ∈ pairs.head?, next.isKept) :
    keptWith (some pair) pairs = pair :: keptWith none pairs := by
  cases pairs with
  | nil => simp [keptWith, dropCommas, hkept]
  | cons next rest =>
    obtain ⟨task, before, after, hkeep⟩ := exists_of_isKept (h next rfl)
    have hstays : ¬(next.2 == .remove .unit && !next.isComma) := by simp [hkeep]
    simp only [keptWith, List.map_cons, Option.map_none, Option.map_some]
    rw [dropCommas.eq_def, dropCommas.eq_def none]
    dsimp only
    rw [if_neg hstays, if_neg hstays]
    simp [hkept]

theorem keptWith_none_cons (h : pair.isComma ∨ pair.isKept) :
    keptWith none (pair :: pairs) = keptWith (some pair) pairs := by
  have hstays : ¬(pair.2 == .remove .unit && !pair.isComma) := by
    rcases h with h | h
    · simp [h]
    · obtain ⟨task, before, after, hkeep⟩ := exists_of_isKept h
      simp [hkeep]
  simp only [keptWith, List.map_cons, Option.map_none, Option.map_some]
  rw [dropCommas.eq_def]
  dsimp only
  rw [if_neg hstays]
  rfl

theorem keptWith_some (h : pair.isComma = false ∨ pair.isKept = false) :
    keptWith (some pair) pairs = [pair].filter Judged.isKept ++ keptWith none pairs := by
  have hother : ∀ task before after, (pair.isComma, pair.2) ≠ (true, .keep task before after) := by
    intro task before after heq
    obtain ⟨hcomma, hkeep⟩ := Prod.mk.inj heq
    rcases h with h | h
    · cases h.symm.trans hcomma
    · simp [Judged.isKept, hkeep, Action.isKeep] at h
  simp only [keptWith, Option.map_none, Option.map_some]
  rw [dropCommas_some _ hother, ← List.filter_append]
  rfl

section Gone

variable (hcomma : comma.isComma) (hkept : comma.isKept) (helement : element.isComma = false)
  (hgone : element.2 = .remove .unit)

include hcomma hkept helement hgone

theorem keptWith_comma_gone :
    keptWith (some comma) (element :: pairs) = keptWith none pairs := by
  have hpast : keptWith (some element) pairs = keptWith none pairs := by
    rw [keptWith_some (.inl helement)]
    simp [Judged.isKept, hgone, Action.isKeep]
  obtain ⟨task, before, after, hkeep⟩ := exists_of_isKept hkept
  rw [← hpast]
  simp [keptWith, dropCommas, hcomma, hkeep, helement, hgone, Judged.isKept, Action.isKeep]

theorem keptWith_none_gone :
    keptWith none (element :: comma :: pairs) = keptWith none pairs := by
  have hpast : keptWith (some (comma.1, .remove .unit)) pairs = keptWith none pairs :=
    keptWith_some (.inr rfl)
  have hsame : Judged.isComma (comma.1, .remove .unit) := hcomma
  obtain ⟨task, before, after, hkeep⟩ := exists_of_isKept hkept
  rw [← hpast]
  simp [keptWith, dropCommas, hcomma, hkeep, hsame, helement, hgone, Judged.isKept, Action.isKeep]

end Gone

/-! ## Lists -/

variable {closer : Option Judged} {elements : List Judged} {trailing : Bool}

theorem keptWith_kept (hcomma : element.isComma = false) (hkept : element.isKept) :
    keptWith none (element :: pairs) = element :: keptWith none pairs := by
  rw [keptWith_none_cons (.inr hkept), keptWith_some (.inl hcomma)]
  simp [hkept]

theorem keptWith_closer (h : ∀ pair ∈ closer, pair.IsBracket) :
    keptWith none closer.toList = closer.toList := by
  cases closer with
  | none => rfl
  | some pair =>
    obtain ⟨hcomma, hkept⟩ := h pair rfl
    exact keptWith_kept hcomma hkept

theorem keptWith_last_gone (h : ∀ pair ∈ closer, pair.IsBracket)
    (helement : element.isComma = false) (hgone : element.2 = .remove .unit) :
    keptWith none (element :: closer.toList) = closer.toList := by
  refine Eq.trans ?_ (keptWith_closer h)
  cases closer with
  | none => simp [keptWith, dropCommas, helement, hgone, Judged.isKept, Action.isKeep]
  | some pair =>
    obtain ⟨hcomma, hkept⟩ := h pair rfl
    obtain ⟨task, before, after, hkeep⟩ := exists_of_isKept hkept
    simp [keptWith, dropCommas, helement, hgone, hcomma, hkeep, Judged.isKept, Action.isKeep]

/-- Behind an element that stays and its comma, the children that stay go on with the list. -/
theorem IsList.keptWith_comma (h : IsList pairs elements trailing)
    (hcloser : ∀ pair ∈ closer, pair.IsBracket) (hcomma : comma.isComma)
    (hkept : comma.isKept) :
    ∃ kept, keptWith (some comma) (pairs ++ closer.toList) = kept ++ closer.toList ∧
      ∀ first : Judged, first.IsElement → IsList (first :: kept)
        (first :: elements.filter Judged.isKept) (trailing || elements.isEmpty) := by
  induction h generalizing comma with
  | nil =>
    refine ⟨[comma], ?_, fun first hfirst => .comma hfirst hcomma hkept .nil⟩
    rw [List.nil_append, keptWith_before hkept, keptWith_closer hcloser, List.singleton_append]
    rw [Option.head?_toList]
    exact fun next hnext => (hcloser next hnext).2
  | @last element helement =>
    rcases helement.2 with hstays | hgone
    · refine ⟨[comma, element], ?_, fun first hfirst => ?_⟩
      · rw [List.singleton_append, keptWith_before hkept (by simpa using hstays),
          keptWith_kept helement.1 hstays, keptWith_closer hcloser]
        rfl
      · simpa [hstays] using IsList.comma hfirst hcomma hkept (.last helement)
    · refine ⟨[], ?_, fun first hfirst => ?_⟩
      · rw [List.singleton_append, keptWith_comma_gone hcomma hkept helement.1 hgone,
          keptWith_closer hcloser, List.nil_append]
      · simpa [Judged.isKept, hgone, Action.isKeep] using IsList.last hfirst
  | @comma element comma' rest elements trailing helement hcomma' hkept' hrest ih =>
    obtain ⟨kept, heq, hlist⟩ := ih hcomma' hkept'
    rcases helement.2 with hstays | hgone
    · refine ⟨comma :: element :: kept, ?_, fun first hfirst => ?_⟩
      · rw [List.cons_append, keptWith_before hkept (by simpa using hstays),
          keptWith_kept helement.1 hstays, List.cons_append, keptWith_none_cons (.inl hcomma'), heq]
        rfl
      · simpa [hstays] using IsList.comma hfirst hcomma hkept (hlist element helement)
    · refine ⟨kept, ?_, fun first hfirst => ?_⟩
      · rw [List.cons_append, keptWith_comma_gone hcomma hkept helement.1 hgone, List.cons_append,
          keptWith_none_cons (.inl hcomma'), heq]
      · simpa [Judged.isKept, hgone, Action.isKeep] using hlist first hfirst

/-- The children that stay of a list in front of which no comma waits. -/
theorem IsList.keptWith_none (h : IsList pairs elements trailing)
    (hcloser : ∀ pair ∈ closer, pair.IsBracket) :
    ∃ kept, keptWith none (pairs ++ closer.toList) = kept ++ closer.toList ∧
      IsList kept (elements.filter Judged.isKept) (trailing && elements.any Judged.isKept) := by
  induction h with
  | nil => exact ⟨[], keptWith_closer hcloser, .nil⟩
  | @last element helement =>
    rcases helement.2 with hstays | hgone
    · refine ⟨[element], ?_, ?_⟩
      · rw [List.singleton_append, keptWith_kept helement.1 hstays, keptWith_closer hcloser]
      · simpa [hstays] using IsList.last helement
    · refine ⟨[], keptWith_last_gone hcloser helement.1 hgone, ?_⟩
      simpa [Judged.isKept, hgone, Action.isKeep] using IsList.nil
  | @comma element comma rest elements trailing helement hcomma hkept hrest ih =>
    rcases helement.2 with hstays | hgone
    · obtain ⟨kept, heq, hlist⟩ := hrest.keptWith_comma hcloser hcomma hkept
      refine ⟨element :: kept, ?_, ?_⟩
      · rw [List.cons_append, keptWith_kept helement.1 hstays, List.cons_append,
          keptWith_none_cons (.inl hcomma), heq, List.cons_append]
      · simpa [hstays] using hlist element helement
    · obtain ⟨kept, heq, hlist⟩ := ih
      refine ⟨kept, ?_, ?_⟩
      · rw [List.cons_append, List.cons_append, keptWith_none_gone hcomma hkept helement.1 hgone,
          heq]
      · cases elements with
        | nil | cons next others => simpa [Judged.isKept, hgone, Action.isKeep] using hlist

/-- When elements go from a list, what stays is the list of the other elements, between the same
brackets: with one comma between any two of them and none in front, and with one behind the last if
the list had one there and an element stays. -/
theorem withoutCommas_isList {opener closer : Option Judged} {body elements : List Judged}
    {trailing : Bool} (hopener : ∀ pair ∈ opener, pair.IsBracket)
    (hcloser : ∀ pair ∈ closer, pair.IsBracket) (hbody : IsList body elements trailing) :
    let pairs := opener.toList ++ body ++ closer.toList
    ∃ kept, ((pairs.map (·.1)).zip
        (withoutCommas (pairs.map (·.1)) (pairs.map (·.2)))).filter Judged.isKept =
          opener.toList ++ kept ++ closer.toList ∧
      IsList kept (elements.filter Judged.isKept) (trailing && elements.any Judged.isKept) := by
  intro pairs
  obtain ⟨kept, heq, hlist⟩ := hbody.keptWith_none hcloser
  refine ⟨kept, ?_, hlist⟩
  have hwith : ((pairs.map (·.1)).zip (withoutCommas (pairs.map (·.1)) (pairs.map (·.2)))).filter
      Judged.isKept = keptWith none pairs := by
    simp only [withoutCommas, keptWith, List.zip_map', List.map_map]
    rfl
  rw [hwith, List.append_assoc]
  cases opener with
  | none => exact heq
  | some pair =>
    obtain ⟨hcomma, hkept⟩ := hopener pair rfl
    exact (keptWith_kept hcomma hkept).trans (congrArg (pair :: ·) heq)

/-- Of three elements in parentheses, with a comma behind the last, the one in the middle stays. -/
theorem withoutCommas_isList_middle :
    let token (kind : TokenKind) (i : Nat) : Node := .leaf { kind, span := ⟨i, i, i + 1⟩ }
    let body : List Judged := [(token .identifier 1, .remove .unit), (token .comma 2, .stay),
      (token .identifier 3, .stay), (token .comma 4, .stay), (token .identifier 5, .remove .unit),
      (token .comma 6, .stay)]
    let pairs := [(token .openParen 0, .stay)] ++ body ++ [(token .closeParen 7, .stay)]
    ∃ kept, ((pairs.map (·.1)).zip
        (withoutCommas (pairs.map (·.1)) (pairs.map (·.2)))).filter Judged.isKept =
          [(token .openParen 0, .stay)] ++ kept ++ [(token .closeParen 7, .stay)] ∧
      IsList kept [(token .identifier 3, .stay)] true := by
  intro token body pairs
  have hbracket : ∀ kind i, kind ≠ .comma → Judged.IsBracket (token kind i, .stay) :=
    fun kind i hkind =>
      ⟨by simpa [token, Judged.isComma, Node.isToken, Node.token?] using hkind, rfl⟩
  have hbody : IsList body [(token .identifier 1, .remove .unit), (token .identifier 3, .stay),
      (token .identifier 5, .remove .unit)] true :=
    .comma ⟨rfl, .inr rfl⟩ rfl rfl (.comma ⟨rfl, .inl rfl⟩ rfl rfl
      (.comma ⟨rfl, .inr rfl⟩ rfl rfl .nil))
  exact @withoutCommas_isList (some (token .openParen 0, .stay)) (some (token .closeParen 7, .stay))
    body _ true (by simpa using hbracket _ 0 (by decide)) (by simpa using hbracket _ 7 (by decide))
      hbody

end Untype.Erasure
