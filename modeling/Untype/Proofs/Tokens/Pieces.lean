-- The pieces of tokens are read without regard to what follows them, apart
-- from the one character that comes next. Where a piece was read, it is read
-- again, whatever text it stands in.
import Untype.Proofs.Scanning

namespace Untype

open Untype.Text Cursor

variable {p isValid : Char → Bool} {cs back back' rest : List Char} {c d : Char} {started : Bool}
  {here here' start : Cursor} {name : NameEnd}

/-! ## What is skipped -/

@[simp]
theorem Cursor.skip_rest (n : Nat) (here : Cursor) : (here.skip n).rest = here.rest.drop n := by
  fun_induction Cursor.skip n here with
  | case1 here | case2 n offset => rfl
  | case3 n offset c rest ih => exact ih

@[simp]
theorem Cursor.skipWhile_rest (p : Char → Bool) (offset : Nat) (cs : List Char) :
    (skipWhile p offset cs).rest = cs.dropWhile p := by
  fun_induction skipWhile p offset cs with
  | case1 offset => rfl
  | case2 offset c rest hc ih => rw [ih, List.dropWhile_cons_of_pos hc]
  | case3 offset c rest hc => rw [List.dropWhile_cons_of_neg hc]

theorem dropWhile_eq_self (h : ∀ c ∈ cs.head?, p c = false) : cs.dropWhile p = cs := by
  cases cs with
  | nil => rfl
  | cons c cs => exact List.dropWhile_cons_of_neg (by simp [h c rfl])

theorem exists_dropWhile (p : Char → Bool) (cs : List Char) :
    ∃ front, cs = front ++ cs.dropWhile p ∧ ∀ c ∈ front.head?, p c :=
  ⟨cs.takeWhile p, List.takeWhile_append_dropWhile.symm,
    fun c hc => List.all_eq_true.1 List.all_takeWhile c (List.mem_of_mem_head? hc)⟩

theorem dropWhile_local (h : (cs ++ back).dropWhile p = back)
    (hnext : ∀ c ∈ back'.head?, p c = false) : (cs ++ back').dropWhile p = back' := by
  have hall : ∀ c ∈ cs, p c := by
    induction cs with
    | nil => nofun
    | cons c cs ih =>
      by_cases hc : p c
      · rw [List.cons_append, List.dropWhile_cons_of_pos hc] at h
        exact List.forall_mem_cons.2 ⟨hc, ih h⟩
      · rw [List.cons_append, List.dropWhile_cons_of_neg hc] at h
        have hlength := congrArg List.length h
        simp only [List.length_cons, List.length_append] at hlength
        omega
  rw [List.dropWhile_append_of_pos hall, dropWhile_eq_self hnext]

/-! ## Digits -/

theorem isNamePart_of_isDigit (h : isDigit c) : isNamePart c := by
  have hascii : c.toNat < 0x80 := by
    have hle : c ≤ '9' := by simpa using (Bool.and_eq_true_iff.1 h).2
    have : c.toNat ≤ 57 := hle
    omega
  simp [isNamePart, isLetterOrNumber, hascii, h]

theorem isNamePart_of_isHexDigit (h : isHexDigit c) : isNamePart c := by
  simp only [isHexDigit, Bool.or_eq_true] at h
  rcases h with (h | h) | h
  · exact isNamePart_of_isDigit h
  all_goals
    have hletter : isAsciiLetter c := by
      simp only [isAsciiLetter, Bool.or_eq_true, Bool.and_eq_true, decide_eq_true_eq] at h ⊢
      first
        | exact .inl ⟨h.1, Char.le_trans h.2 (by decide)⟩
        | exact .inr ⟨h.1, Char.le_trans h.2 (by decide)⟩
    have hascii : c.toNat < 0x80 := by
      simp only [Bool.and_eq_true, decide_eq_true_eq] at h
      have hle : c.toNat ≤ 102 := Nat.le_trans h.2 (by decide)
      omega
    simp [isNamePart, isLetterOrNumber, isLetter, hascii, hletter]

theorem digitCount_le (isValid : Char → Bool) (started : Bool) (cs : List Char) :
    digitCount isValid started cs ≤ cs.length := by
  fun_induction digitCount isValid started cs <;> simp_all

/-- Digits go on up to a character that is none. -/
theorem digitCount_local (h : digitCount isValid started (cs ++ back) = cs.length)
    (hnext : back'.head? = back.head? ∨ ∀ c ∈ back'.head?, isValid c = false ∧ c ≠ '_') :
    digitCount isValid started (cs ++ back') = cs.length := by
  induction cs generalizing started with
  | nil =>
    cases back' with
    | nil => rfl
    | cons c rest =>
      rcases hnext with hsame | hnext
      · cases back with
        | nil => cases hsame
        | cons d rest' =>
          cases hsame
          simp only [List.nil_append, List.length_nil, digitCount] at h ⊢
          split at h
          · omega
          · rename_i hc
            rw [if_neg hc]
      · obtain ⟨hvalid, hscore⟩ := hnext c rfl
        simp [digitCount, hvalid, hscore]
  | cons c cs ih =>
    simp only [List.cons_append, digitCount, List.length_cons] at h ⊢
    split at h
    · rename_i hc
      rw [if_pos hc, ih (by omega)]
    · omega

theorem digitCount_of_skipDigits (hhere : here.rest = cs ++ back)
    (hstop : (here.skipDigits isValid).rest = back) :
    digitCount isValid false (cs ++ back) = cs.length := by
  have hle := digitCount_le isValid false (cs ++ back)
  have hlength := congrArg List.length hstop
  simp only [skipDigits, skip_rest, hhere, List.length_drop, List.length_append] at hlength hle
  omega

theorem skipDigits_local (hhere : here.rest = cs ++ back)
    (hstop : (here.skipDigits isValid).rest = back) (hhere' : here'.rest = cs ++ back')
    (hnext : back'.head? = back.head? ∨ ∀ c ∈ back'.head?, isValid c = false ∧ c ≠ '_') :
    (here'.skipDigits isValid).rest = back' := by
  have hcount := digitCount_of_skipDigits hhere hstop
  rw [skipDigits, skip_rest, hhere', digitCount_local hcount hnext, List.drop_left]

theorem digitCount_all (h : digitCount isValid started (cs ++ back) = cs.length) :
    ∀ c ∈ cs, isValid c ∨ c = '_' := by
  induction cs generalizing started with
  | nil => nofun
  | cons c cs ih =>
    simp only [List.cons_append, digitCount, List.length_cons] at h
    split at h
    · rename_i hc
      refine List.forall_mem_cons.2 ⟨?_, ih (Nat.succ.inj h)⟩
      simp only [Bool.or_eq_true, Bool.and_eq_true, beq_iff_eq] at hc
      exact hc.imp_right And.left
    · omega

theorem isDigit_of_not_isHexDigit (h : isHexDigit c = false) : isDigit c = false := by
  simp only [isHexDigit, Bool.or_eq_false_iff] at h
  exact h.1.1

/-- No number goes on with a character that is neither a digit of some base nor an underscore. -/
def EndsDigits (cs : List Char) : Prop := ∀ c ∈ cs.head?, isHexDigit c = false ∧ c ≠ '_'

theorem exists_skipDigits (hhere : here.rest = d :: rest) (hd : isValid d) :
    ∃ ds, rest = ds ++ (here.skipDigits isValid).rest := by
  refine ⟨rest.take (digitCount isValid true rest), ?_⟩
  simp [skipDigits, hhere, digitCount, hd]

/-- What stands before the digits of an exponent. -/
def exponentMarks : List (List Char) :=
  [['e'], ['E'], ['e', '+'], ['e', '-'], ['E', '+'], ['E', '-']]

theorem skipExponent_of_mark {mark : List Char} (hmark : mark ∈ exponentMarks)
    (hhere : here.rest = mark ++ d :: rest) (hd : isDigit d) :
    here.skipExponent = (here.skip mark.length).skipDigits isDigit := by
  have hsign : d ≠ '+' ∧ d ≠ '-' := by constructor <;> rintro rfl <;> cases hd
  simp only [exponentMarks, List.mem_cons, List.not_mem_nil, or_false] at hmark
  rcases hmark with rfl | rfl | rfl | rfl | rfl | rfl <;> simp [skipExponent, hhere, hd, hsign]

/-- An exponent is there with its first digit, or not at all. -/
theorem skipExponent_cases (here : Cursor) : here.skipExponent = here ∨
    ∃ mark ∈ exponentMarks, ∃ d rest, here.rest = mark ++ d :: rest ∧ isDigit d := by
  unfold skipExponent
  split
  · rename_i e rest hrest
    split
    · rename_i he
      have he : e = 'e' ∨ e = 'E' := by simpa using he
      split
      · rename_i sign digits
        split
        · rename_i hsign
          simp only [Bool.and_eq_true, Bool.or_eq_true, beq_iff_eq] at hsign
          cases digits with
          | nil => cases hsign.2
          | cons d rest =>
            refine .inr ⟨[e, sign], ?_, d, rest, hrest, hsign.2⟩
            rcases he with rfl | rfl <;> rcases hsign.1 with rfl | rfl <;> decide
        · split
          · rename_i hd
            refine .inr ⟨[e], ?_, sign, digits, hrest, hd⟩
            rcases he with rfl | rfl <;> decide
          · exact .inl rfl
      · exact .inl rfl
    · exact .inl rfl
  · exact .inl rfl

theorem skipExponent_local (hhere : here.rest = cs ++ back) (hstop : here.skipExponent.rest = back)
    (hhere' : here'.rest = cs ++ back') (hnext : EndsDigits back') :
    here'.skipExponent.rest = back' := by
  rcases skipExponent_cases here with hsame | ⟨mark, hmark, d, rest, hrest, hd⟩
  · obtain rfl : cs = [] := by
      rw [hsame, hhere] at hstop
      exact List.append_cancel_right (hstop.trans (List.nil_append back).symm)
    rcases skipExponent_cases here' with hsame' | ⟨mark, hmark, d, rest, hrest, -⟩
    · rw [hsame', hhere', List.nil_append]
    · -- No mark starts with a character that ends digits.
      rw [List.nil_append, hrest] at hhere'
      simp only [exponentMarks, List.mem_cons, List.not_mem_nil, or_false] at hmark
      rcases hmark with rfl | rfl | rfl | rfl | rfl | rfl <;>
        exact absurd (hnext _ (by rw [← hhere']; rfl)).1 (by decide)
  · have hskip : (here.skip mark.length).rest = d :: rest := by simp [hrest]
    have hexp := skipExponent_of_mark hmark hrest hd
    obtain ⟨ds, hds⟩ := exists_skipDigits hskip hd
    rw [← hexp, hstop] at hds
    obtain rfl : cs = mark ++ d :: ds :=
      List.append_cancel_right (hhere.symm.trans (by rw [hrest, hds]; simp))
    rw [List.append_assoc] at hhere'
    rw [skipExponent_of_mark hmark hhere' hd]
    have hfrom : (here.skip mark.length).rest = (d :: ds) ++ back := by rw [hskip, hds]; rfl
    refine skipDigits_local hfrom (hexp ▸ hstop) (by simp [hhere']) (.inr fun c hc => ?_)
    exact ⟨isDigit_of_not_isHexDigit (hnext c hc).1, (hnext c hc).2⟩

/-- A number that is only digits goes on with a dot. -/
theorem skipDecimal_local (hhere : here.rest = cs ++ back) (hstop : here.skipDecimal.rest = back)
    (hhere' : here'.rest = cs ++ back') (hnext : EndsDigits back')
    (hdot : back'.head? = some '.' → ∃ c ∈ cs, isDigit c = false ∧ c ≠ '_') :
    here'.skipDecimal.rest = back' := by
  have hdigit : ∀ e : List Char, (e ++ back').head? = (e ++ back).head? ∨
      ∀ c ∈ (e ++ back').head?, isDigit c = false ∧ c ≠ '_' := by
    intro e
    cases e with
    | nil => exact .inr fun c hc => ⟨isDigit_of_not_isHexDigit (hnext c hc).1, (hnext c hc).2⟩
    | cons c e => exact .inl rfl
  unfold skipDecimal at hstop ⊢
  dsimp only at hstop ⊢
  obtain ⟨w, hw, -⟩ := leads_skipDigits isDigit here
  split at hstop
  · rename_i hpoint
    obtain ⟨f, hf, -⟩ := leads_skipDigits isDigit ((here.skipDigits isDigit).skip 1)
    obtain ⟨e, he, -⟩ := leads_skipExponent (((here.skipDigits isDigit).skip 1).skipDigits isDigit)
    rw [hstop] at he
    obtain ⟨tail, htail⟩ : ∃ tail, (here.skipDigits isDigit).rest = '.' :: tail := by
      cases hrest : (here.skipDigits isDigit).rest with
      | nil => simp [hrest] at hpoint
      | cons c tail => exact ⟨tail, by simpa [hrest] using hpoint⟩
    have hpast : ((here.skipDigits isDigit).skip 1).rest = tail := by simp [htail]
    rw [hpast, he] at hf
    have hcs : cs ++ back = (w ++ '.' :: (f ++ e)) ++ back := by
      rw [← hhere, hw, htail, hf]
      simp
    obtain rfl := List.append_cancel_right hcs
    rw [htail] at hw
    rw [hf] at hpast
    have hwhole : (here'.skipDigits isDigit).rest = '.' :: (f ++ (e ++ back')) :=
      skipDigits_local hw htail (by simp [hhere']) (.inl rfl)
    rw [if_pos (by simp [hwhole])]
    have hfraction : (((here'.skipDigits isDigit).skip 1).skipDigits isDigit).rest = e ++ back' :=
      skipDigits_local hpast he (by simp [hwhole]) (hdigit e)
    exact skipExponent_local he hstop hfraction hnext
  · rename_i hpoint
    obtain ⟨e, he, -⟩ := leads_skipExponent (here.skipDigits isDigit)
    rw [hstop] at he
    have hcs : cs ++ back = (w ++ e) ++ back := by rw [← hhere, hw, he, List.append_assoc]
    obtain rfl := List.append_cancel_right hcs
    rw [he] at hw
    have hwhole : (here'.skipDigits isDigit).rest = e ++ back' :=
      skipDigits_local hw he (by simp [hhere']) (hdigit e)
    rw [if_neg]
    · exact skipExponent_local he hstop hwhole hnext
    · rw [hwhole]
      rw [he] at hpoint
      cases e with
      | cons c e => simpa using hpoint
      | nil =>
        intro hhead
        obtain ⟨c, hc, hnot, hscore⟩ := hdot (by simpa using hhead)
        rw [List.append_nil] at hc
        rcases digitCount_all (digitCount_of_skipDigits hw he) c hc with hyes | heq
        · cases hnot.symm.trans hyes
        · exact hscore heq

/-- The digits that a letter after a leading zero asks for. -/
def digitsOfBase? : List Char → Option (Char → Bool)
  | '0' :: c :: _ => (baseDigits {} c).map (·.1)
  | _ => none

/-- The end of the digits of a number. -/
def numberEnd (start : Cursor) : Cursor :=
  match digitsOfBase? start.rest with
  | some isValid => (start.skip 2).skipDigits isValid
  | none => start.skipDecimal

theorem baseDigits_cases (flags : TokenFlags) (c : Char) :
    baseDigits flags c = none ∧ baseDigits {} c = none ∨
      ∃ isValid flags', baseDigits flags c = some (isValid, flags') ∧
        (baseDigits {} c).map (·.1) = some isValid ∧ flags'.unterminated = flags.unterminated := by
  unfold baseDigits
  repeat' split
  all_goals first
    | exact .inr ⟨_, _, rfl, rfl, rfl⟩
    | exact .inl ⟨rfl, rfl⟩

/-- A number ends with its digits, or with an `n` after them. -/
theorem readNumber_eq (flags : TokenFlags) (start : Cursor) :
    (readNumber flags start).flags.unterminated = flags.unterminated ∧
      (readNumber flags start).stop =
        (if (numberEnd start).rest.head? == some 'n' then (numberEnd start).skip 1
          else numberEnd start) ∧
      (readNumber flags start).kind =
        if (numberEnd start).rest.head? == some 'n' then .bigIntLiteral else .numericLiteral := by
  unfold readNumber numberEnd
  dsimp only
  split
  · rename_i based isValid flags' hbased
    obtain ⟨hsome, hflags⟩ : digitsOfBase? start.rest = some isValid ∧
        flags'.unterminated = flags.unterminated := by
      split at hbased
      · rename_i c tail hrest
        rcases baseDigits_cases flags c with ⟨hnone, -⟩ | ⟨_, _, hsome, hsome', hflags⟩
        · cases hnone.symm.trans hbased
        · cases hsome.symm.trans hbased
          exact ⟨by rw [hrest]; exact hsome', hflags⟩
      · cases hbased
    rw [hsome]
    dsimp only
    split <;> exact ⟨hflags, rfl, rfl⟩
  · rename_i based hbased
    have hnone : digitsOfBase? start.rest = none := by
      split at hbased
      · rename_i c tail hrest
        rcases baseDigits_cases flags c with ⟨-, hnone⟩ | ⟨_, _, hsome, -⟩
        · simp [digitsOfBase?, hrest, hnone]
        · cases hsome.symm.trans hbased
      · rename_i hother
        unfold digitsOfBase?
        split
        · exact absurd ‹_› (hother _ _)
        · rfl
    rw [hnone]
    dsimp only
    split <;> exact ⟨rfl, rfl, rfl⟩

theorem isHexDigit_of_base (h : digitsOfBase? cs = some isValid) (hd : isHexDigit d = false) :
    isValid d = false := by
  have hdigit := isDigit_of_not_isHexDigit hd
  unfold digitsOfBase? baseDigits at h
  repeat' split at h
  · cases h
    exact hd
  · cases h
    simp only [isOctalDigit, isDigit, Bool.and_eq_false_imp, decide_eq_true_eq,
      decide_eq_false_iff_not] at hdigit ⊢
    intro hlow hhigh
    exact hdigit hlow (Char.le_trans hhigh (by decide))
  · cases h
    cases hbinary : isBinaryDigit d with
    | false => exact hbinary
    | true =>
      rcases (by simpa [isBinaryDigit] using hbinary : d = '0' ∨ d = '1') with rfl | rfl <;>
        cases hd
  · cases h
  · cases h

theorem digitsOfBase?_eq_some (h : digitsOfBase? cs = some isValid) :
    ∃ c tail, cs = '0' :: c :: tail := by
  unfold digitsOfBase? at h
  split at h
  · exact ⟨_, _, rfl⟩
  · cases h

theorem leads_numberEnd (start : Cursor) : start.Leads (numberEnd start) := by
  unfold numberEnd
  split
  · exact (leads_skip 2 start).trans (leads_skipDigits _ _)
  · exact leads_skipDecimal start

theorem numberEnd_dot {tail : List Char} (hstart : start.rest = '.' :: d :: tail)
    (hd : isDigit d) : ∃ ds, tail = ds ++ (numberEnd start).rest := by
  have hbase : digitsOfBase? start.rest = none := by rw [hstart]; rfl
  have hwhole : start.skipDigits isDigit = start := by rw [skipDigits, hstart]; rfl
  have hfirst : (start.skip 1).rest = d :: tail := by simp [hstart]
  obtain ⟨ds, hds⟩ := exists_skipDigits hfirst hd
  obtain ⟨exponent, hexponent, -⟩ := leads_skipExponent ((start.skip 1).skipDigits isDigit)
  have hend : numberEnd start = ((start.skip 1).skipDigits isDigit).skipExponent := by
    rw [numberEnd, hbase]
    simp [skipDecimal, hwhole, hstart]
  exact ⟨ds ++ exponent, by rw [hend, List.append_assoc, ← hexponent]; exact hds⟩

theorem numberEnd_local {start' : Cursor} (hstart : start.rest = cs ++ back) (hne : cs ≠ [])
    (hstop : (numberEnd start).rest = back) (hstart' : start'.rest = cs ++ back')
    (hnext : EndsDigits back') (hbase : digitsOfBase? ('0' :: back') = none)
    (hdot : back'.head? = some '.' → ∃ c ∈ cs, isDigit c = false ∧ c ≠ '_') :
    (numberEnd start').rest = back' := by
  unfold numberEnd at hstop ⊢
  rw [hstart] at hstop
  rw [hstart']
  cases hsame : digitsOfBase? (cs ++ back) with
  | some isValid =>
    rw [hsame] at hstop
    obtain ⟨ds, hds, -⟩ := leads_skipDigits isValid (start.skip 2)
    dsimp only at hstop
    rw [hstop] at hds
    -- The two characters that tell the base are taken, so they belong to the number.
    obtain ⟨c, tail, hcs⟩ := digitsOfBase?_eq_some hsame
    obtain rfl : cs = '0' :: c :: ds := by
      have htail : tail = ds ++ back := by simpa [hstart, hcs] using hds
      rw [htail] at hcs
      exact List.append_cancel_right hcs
    have hsame' : digitsOfBase? ('0' :: c :: ds ++ back') = some isValid := hsame
    rw [hsame']
    refine skipDigits_local hds hstop (by simp [hstart']) (.inr fun d hd => ?_)
    exact ⟨isHexDigit_of_base hsame (hnext d hd).1, (hnext d hd).2⟩
  | none =>
    rw [hsame] at hstop
    have hnone : digitsOfBase? (cs ++ back') = none := by
      match cs, hne with
      | [c], _ =>
        by_cases hc : c = '0'
        · rw [hc]
          exact hbase
        · simp [digitsOfBase?, hc]
      | c :: d :: cs, _ =>
        by_cases hc : c = '0'
        · subst hc
          exact hsame
        · simp [digitsOfBase?, hc]
    rw [hnone]
    exact skipDecimal_local hstart hstop hstart' hnext hdot

/-! ## Quoted texts -/

/-- The end of a quoted text as the end of a piece of a template: the place and the reason. -/
def QuotedEnd.pair (found : QuotedEnd) : Cursor × Bool := (found.stop, found.terminated)

/-- What a reader took of a text it takes again, if it came to its end, whatever follows there.
Where it did not, it does not so without the rest. -/
structure Taken {ρ : Type} (read : Nat → List Char → Cursor × ρ) (isEnd : ρ → Bool) (reason : ρ)
    (front : List Char) : Prop where
  alone : ∀ offset, (read offset front).2 = reason ∧ (read offset front).1.rest = []
  nonempty : isEnd reason → front ≠ []
  again : isEnd reason → ∀ offset back,
    (read offset (front ++ back)).2 = reason ∧ (read offset (front ++ back)).1.rest = back

namespace Taken

variable {ρ : Type} {read : Nat → List Char → Cursor × ρ} {isEnd : ρ → Bool} {reason : ρ}
  {front : List Char}

theorem repeats (h : Taken read isEnd reason front) (hback : ∀ c ∈ back.head?, isEnd reason)
    (offset : Nat) :
    (read offset (front ++ back)).2 = reason ∧ (read offset (front ++ back)).1.rest = back := by
  cases back with
  | nil =>
    rw [List.append_nil]
    exact h.alone offset
  | cons c back => exact h.again (hback c rfl) offset (c :: back)

end Taken

/-- A reader took what stands in front of the rest. -/
def TakenTo {ρ : Type} (read : Nat → List Char → Cursor × ρ) (isEnd : ρ → Bool) (reason : ρ)
    (cs rest : List Char) : Prop :=
  ∃ front, cs = front ++ rest ∧ Taken read isEnd reason front

namespace TakenTo

variable {ρ : Type} {read before : Nat → List Char → Cursor × ρ} {isEnd : ρ → Bool} {reason : ρ}

/-- A reader that goes past a piece, and then on as another one does, takes the piece, too. -/
theorem append (h : TakenTo read isEnd reason cs rest) (piece : List Char) (size : Nat)
    (hstep : ∀ offset rest', (∀ d tail, rest' = d :: tail → ∃ tail', cs = d :: tail') →
      before offset (piece ++ rest') = read (offset + size) rest') :
    TakenTo before isEnd reason (piece ++ cs) rest := by
  obtain ⟨front, rfl, htaken⟩ := h
  have hgoes : ∀ offset rest', rest'.head? = front.head? →
      before offset (piece ++ rest') = read (offset + size) rest' := by
    intro offset rest' hhead
    refine hstep offset rest' fun d tail hrest => ?_
    subst hrest
    cases front with
    | nil => cases hhead
    | cons e front =>
      cases hhead
      exact ⟨_, rfl⟩
  refine ⟨piece ++ front, (List.append_assoc ..).symm, fun offset => ?_, fun hend => ?_, ?_⟩
  · rw [hgoes offset front rfl]
    exact htaken.alone _
  · simp [htaken.nonempty hend]
  · intro hend offset back
    obtain ⟨c, front, rfl⟩ := List.exists_cons_of_ne_nil (htaken.nonempty hend)
    rw [List.append_assoc, hgoes offset (c :: front ++ back) rfl]
    exact htaken.again hend _ back

theorem ofOpen (front : List Char)
    (h : ∀ offset, (read offset front).2 = reason ∧ (read offset front).1.rest = [])
    (hreason : isEnd reason = false) : TakenTo read isEnd reason (front ++ rest) rest := by
  have hnot : isEnd reason ≠ true := by simp [hreason]
  exact ⟨front, rfl, h, fun hend => absurd hend hnot, fun hend => absurd hend hnot⟩

theorem ofEnd (c : Char) (front : List Char)
    (h : ∀ offset back, (read offset (c :: front ++ back)).2 = reason ∧
      (read offset (c :: front ++ back)).1.rest = back) :
    TakenTo read isEnd reason (c :: front ++ rest) rest := by
  refine ⟨c :: front, rfl, fun offset => ?_, fun _ => List.cons_ne_nil _ _, fun _ => h⟩
  have halone := h offset []
  rwa [List.append_nil] at halone

end TakenTo

theorem stringEnd_local {quote : Char} (hquote : quote ≠ '\\') (offset : Nat) (cs : List Char) :
    TakenTo (fun offset cs => (stringEnd quote offset cs).pair) id
      (stringEnd quote offset cs).terminated cs (stringEnd quote offset cs).stop.rest := by
  fun_induction stringEnd quote offset cs
  case case1 offset => exact .ofOpen [] (fun _ => ⟨rfl, rfl⟩) rfl
  case case2 offset rest ih =>
    exact ih.append ['\\', '\r', '\n'] 3 fun _ _ _ => by
      simp only [List.cons_append, List.nil_append, stringEnd]
  case case3 offset c rest hbreak ih =>
    refine ih.append ['\\', c] (1 + c.utf8Size) fun offset rest' hfirst => ?_
    rw [List.cons_append, List.cons_append, List.nil_append, stringEnd, Nat.add_assoc]
    intro tail hc htail
    obtain ⟨tail', htail⟩ := hfirst _ _ htail
    exact hbreak tail' hc htail
  case case4 offset c rest _ _ hc =>
    obtain rfl : c = quote := by simpa using hc
    refine .ofEnd c [] fun offset back => ?_
    rw [List.cons_append, List.nil_append, stringEnd]
    · simp [QuotedEnd.pair]
    · exact fun _ h => absurd h hquote
    · exact fun _ _ h => absurd h hquote
  case case5 offset c rest _ _ _ _ => exact .ofOpen [] (fun _ => ⟨rfl, rfl⟩) rfl
  case case6 offset c rest hbreak hescape hc hline ih =>
    refine ih.append [c] c.utf8Size fun offset rest' hfirst => ?_
    -- A backslash would be alone at the end of the text.
    have hescape' : ∀ d tail, c = '\\' → rest' = d :: tail → False := by
      intro d tail hc htail
      obtain ⟨tail', htail⟩ := hfirst d tail htail
      exact hescape d tail' hc htail
    rw [List.cons_append, List.nil_append, stringEnd, if_neg hc, if_neg hline]
    · exact fun tail h htail => hescape' _ _ h htail
    · exact hescape'

theorem attributeEnd_local (quote : Char) (offset : Nat) (cs : List Char) :
    TakenTo (fun offset cs => (attributeEnd quote offset cs).pair) id
      (attributeEnd quote offset cs).terminated cs (attributeEnd quote offset cs).stop.rest := by
  fun_induction attributeEnd quote offset cs
  case case1 offset => exact .ofOpen [] (fun _ => ⟨rfl, rfl⟩) rfl
  case case2 offset c rest hc =>
    refine .ofEnd c [] fun offset back => ?_
    rw [List.cons_append, List.nil_append, attributeEnd, if_pos hc]
    exact ⟨rfl, rfl⟩
  case case3 offset c rest hc ih =>
    exact ih.append [c] c.utf8Size fun offset rest' _ => by
      rw [List.cons_append, List.nil_append, attributeEnd, if_neg hc]

/-- The piece of a template has its end. -/
def TemplateStop.isEnd : TemplateStop → Bool
  | endOfText => false
  | _ => true

theorem templateEnd_local (offset : Nat) (cs : List Char) :
    TakenTo templateEnd TemplateStop.isEnd (templateEnd offset cs).2 cs
      (templateEnd offset cs).1.rest := by
  fun_induction templateEnd offset cs
  case case1 offset => exact .ofOpen [] (fun _ => ⟨rfl, rfl⟩) rfl
  case case2 offset rest => exact .ofEnd '\x60' [] fun _ _ => ⟨rfl, rfl⟩
  case case3 offset rest => exact .ofEnd '$' ['\x7b'] fun _ _ => ⟨rfl, rfl⟩
  case case4 offset rest ih =>
    exact ih.append ['\\', '\r', '\n'] 3 fun _ _ _ => by
      simp only [List.cons_append, List.nil_append, templateEnd]
  case case5 offset c rest hbreak ih =>
    refine ih.append ['\\', c] (1 + c.utf8Size) fun offset rest' hfirst => ?_
    rw [List.cons_append, List.cons_append, List.nil_append, templateEnd, Nat.add_assoc]
    intro tail hc htail
    obtain ⟨tail', htail⟩ := hfirst _ _ htail
    exact hbreak tail' hc htail
  case case6 offset c rest htick hbrace hbreak hescape ih =>
    refine ih.append [c] c.utf8Size fun offset rest' hfirst => ?_
    have hescape' : ∀ d tail, c = '\\' → rest' = d :: tail → False := by
      intro d tail hc htail
      obtain ⟨tail', htail⟩ := hfirst d tail htail
      exact hescape d tail' hc htail
    rw [List.cons_append, List.nil_append, templateEnd]
    · exact htick
    · intro tail hc htail
      obtain ⟨tail', htail⟩ := hfirst _ _ htail
      exact hbrace tail' hc htail
    · exact fun tail hc htail => hescape' _ _ hc htail
    · exact hescape'

theorem regularExpressionEnd_local (inClass : Bool) (offset : Nat) (cs : List Char) :
    TakenTo (fun offset cs => (regularExpressionEnd inClass offset cs).pair) id
      (regularExpressionEnd inClass offset cs).terminated cs
      (regularExpressionEnd inClass offset cs).stop.rest := by
  fun_induction regularExpressionEnd inClass offset cs
  case case1 | case5 => exact .ofOpen [] (fun _ => ⟨rfl, rfl⟩) rfl
  case case2 | case3 => exact .ofOpen ['\\'] (fun _ => ⟨rfl, rfl⟩) rfl
  case case4 inClass offset c rest hc ih =>
    refine ih.append ['\\', c] (1 + c.utf8Size) fun offset rest' _ => ?_
    rw [List.cons_append, List.cons_append, List.nil_append, regularExpressionEnd]
    rw [if_neg hc, Nat.add_assoc]
  case case6 inClass offset c rest hescape hline hc =>
    refine .ofEnd c [] fun offset back => ?_
    rw [List.cons_append, List.nil_append, regularExpressionEnd, if_neg hline, if_pos hc]
    · exact ⟨rfl, rfl⟩
    · exact hescape
  case case7 inClass offset c rest hescape hline hc inClass' ih =>
    refine ih.append [c] c.utf8Size fun offset rest' _ => ?_
    rw [List.cons_append, List.nil_append, regularExpressionEnd, if_neg hline, if_neg hc]
    exact hescape

/-! ## Names -/

/-- No escape goes on with a character that is no part of a name and no brace. -/
def EndsEscape (cs : List Char) : Prop :=
  ∀ c ∈ cs.head?, isNamePart c = false ∧ c ≠ '\x7b' ∧ c ≠ '\x7d'

theorem EndsEscape.endsDigits (h : EndsEscape cs) : EndsDigits cs := by
  intro c hc
  have hpart := (h c hc).1
  constructor
  · cases hhex : isHexDigit c with
    | false => rfl
    | true => cases hpart.symm.trans (isNamePart_of_isHexDigit hhex)
  · rintro rfl
    cases hpart

theorem escapeExtent_le (cs : List Char) : (escapeExtent cs).1 ≤ cs.length := by
  unfold escapeExtent
  split
  · rename_i rest
    have hle := digitCount_le isHexDigit false rest
    dsimp only
    split
    · rename_i hclose
      have hlt : digitCount isHexDigit false rest < rest.length := by
        cases hdrop : rest.drop (digitCount isHexDigit false rest) with
        | nil => simp [hdrop] at hclose
        | cons c tail =>
          have hlength := congrArg List.length hdrop
          simp only [List.length_drop, List.length_cons] at hlength
          omega
      simp only [List.length_cons]
      omega
    · simpa using hle
  · have hle := (List.takeWhile_prefix (l := cs) isHexDigit).length_le
    dsimp only
    omega

/-- Digits in braces. -/
theorem escapeExtent_brace (h : (escapeExtent ('\x7b' :: cs ++ back)).1 ≤ cs.length + 1)
    (hnext : EndsEscape back') :
    escapeExtent ('\x7b' :: cs ++ back') = escapeExtent ('\x7b' :: cs ++ back) := by
  simp only [List.cons_append, escapeExtent] at h ⊢
  have hle : digitCount isHexDigit false (cs ++ back) ≤ cs.length := by
    split at h <;> dsimp only at h <;> omega
  generalize hcount : digitCount isHexDigit false (cs ++ back) = count at h hle ⊢
  have hsplit : ∀ rest, cs ++ rest = cs.take count ++ (cs.drop count ++ rest) := by
    intro rest
    rw [← List.append_assoc, List.take_append_drop]
  have hcount' : digitCount isHexDigit false (cs ++ back') = count := by
    rw [hsplit] at hcount ⊢
    have htake : (cs.take count).length = count := List.length_take_of_le hle
    refine (digitCount_local (hcount.trans htake.symm) ?_).trans htake
    cases cs.drop count with
    | nil => exact .inr hnext.endsDigits
    | cons c rest => exact .inl rfl
  rw [hcount']
  have hdrop : ∀ rest, (cs ++ rest).drop count = cs.drop count ++ rest :=
    fun rest => List.drop_append_of_le_length hle
  rw [hdrop] at h ⊢
  rw [hdrop]
  cases hlast : cs.drop count with
  | cons c rest => rfl
  | nil =>
    -- The brace that closes the escape would have been taken.
    have hend : count = cs.length := by
      have hlength := congrArg List.length hlast
      simp only [List.length_drop, List.length_nil] at hlength
      omega
    rw [hlast, List.nil_append] at h
    have hback : (back.head? == some '\x7d') = false := by
      cases hclose : back.head? == some '\x7d' with
      | false => rfl
      | true =>
        rw [hclose, if_pos rfl] at h
        dsimp only at h
        omega
    have hback' : (back'.head? == some '\x7d') = false := by
      cases back' with
      | nil => rfl
      | cons c rest => simpa using (hnext c rfl).2.2
    simp only [List.nil_append, hback, hback']

/-- Up to four digits. -/
theorem escapeExtent_digits (hbrace : cs.head? ≠ some '\x7b')
    (h : (escapeExtent (cs ++ back)).1 ≤ cs.length) (hnext : EndsEscape back') :
    escapeExtent (cs ++ back') = escapeExtent (cs ++ back) := by
  have hplain : ∀ rest : List Char, rest.head? ≠ some '\x7b' → escapeExtent rest =
      (min 4 (rest.takeWhile isHexDigit).length,
        min 4 (rest.takeWhile isHexDigit).length == 4) := by
    intro rest hrest
    unfold escapeExtent
    split
    · exact absurd rfl hrest
    · rfl
  have hback' : back'.head? ≠ some '\x7b' := fun hhead => (hnext _ hhead).2.1 rfl
  have hnone : back'.takeWhile isHexDigit = [] := by
    cases back' with
    | nil => rfl
    | cons c rest => exact List.takeWhile_cons_of_neg (by simp [(hnext.endsDigits c rfl).1])
  have hfirst : (cs ++ back).head? ≠ some '\x7b' := by
    cases cs with
    | cons c cs => exact hbrace
    | nil =>
      -- An opening brace would have been taken.
      intro hhead
      cases back with
      | nil => cases hhead
      | cons c back =>
        cases hhead
        simp only [List.nil_append, escapeExtent, List.length_nil] at h
        split at h <;> dsimp only at h <;> omega
  have hfirst' : (cs ++ back').head? ≠ some '\x7b' := by
    cases cs with
    | cons c cs => exact hbrace
    | nil => exact hback'
  rw [hplain _ hfirst] at h ⊢
  rw [hplain _ hfirst', List.takeWhile_append, List.takeWhile_append, hnone, List.append_nil]
  rw [List.takeWhile_append] at h
  dsimp only at h
  split
  · rename_i hall
    rw [if_pos hall, List.length_append] at h
    have hsame : min 4 cs.length = min 4 (cs ++ back.takeWhile isHexDigit).length := by
      rw [List.length_append]
      omega
    rw [hsame]
  · rfl

theorem escapeExtent_local (h : (escapeExtent (cs ++ back)).1 ≤ cs.length)
    (hnext : EndsEscape back') : escapeExtent (cs ++ back') = escapeExtent (cs ++ back) := by
  by_cases hbrace : cs.head? = some '\x7b'
  · cases cs with
    | nil => cases hbrace
    | cons c cs =>
      cases hbrace
      exact escapeExtent_brace h hnext
  · exact escapeExtent_digits hbrace h hnext

/-- One turn of the reader of names: it stops, or goes past a character or an escape. -/
theorem nameEndFrom_succ (fuel : Nat) (name : NameEnd) :
    nameEndFrom (fuel + 1) name = name ∨
      (∃ c rest, name.stop.rest = c :: rest ∧ isNamePart c ∧
        nameEndFrom (fuel + 1) name = nameEndFrom fuel { name with stop := name.stop.skip 1 }) ∨
      ∃ rest bad, name.stop.rest = '\\' :: 'u' :: rest ∧
        nameEndFrom (fuel + 1) name =
          nameEndFrom fuel ⟨name.stop.skip ((escapeExtent rest).1 + 2), true, bad⟩ := by
  rw [nameEndFrom]
  split
  · exact .inl rfl
  · rename_i c rest hrest
    split
    · rename_i hc
      exact .inr (.inl ⟨c, rest, hrest, hc, rfl⟩)
    · split
      · rename_i hc
        obtain ⟨rfl, hu⟩ : c = '\\' ∧ rest.head? = some 'u' := by simpa using hc
        obtain ⟨tail, rfl⟩ : ∃ tail, rest = 'u' :: tail := by
          cases rest with
          | nil => cases hu
          | cons d tail =>
            cases hu
            exact ⟨tail, rfl⟩
        exact .inr (.inr ⟨tail, _, hrest, rfl⟩)
      · exact .inl rfl

theorem nameEndFrom_stop (h : ∀ c ∈ name.stop.rest.head?, isNamePart c = false ∧ c ≠ '\\')
    (fuel : Nat) : nameEndFrom fuel name = name := by
  cases fuel with
  | zero => rfl
  | succ fuel =>
    rcases nameEndFrom_succ fuel name with hsame | ⟨c, rest, hrest, hc, -⟩ | ⟨rest, bad, hrest, -⟩
    · exact hsame
    · cases (h c (by simp [hrest])).1.symm.trans hc
    · exact absurd rfl (h '\\' (by simp [hrest])).2

/-- A name is read again before anything that it does not go on with. -/
theorem nameEndFrom_local {fuel fuel' : Nat} {name' : NameEnd} (hrest : name.stop.rest = cs ++ back)
    (hstop : (nameEndFrom fuel name).stop.rest = back) (hrest' : name'.stop.rest = cs ++ back')
    (hsame : name'.hasEscape = name.hasEscape) (hfuel : cs.length < fuel')
    (hnext : ∀ c ∈ back'.head?, isNamePart c = false ∧ c ≠ '\\')
    (hescape : '\\' ∈ cs → EndsEscape back') :
    (nameEndFrom fuel' name').stop.rest = back' ∧
      (nameEndFrom fuel' name').hasEscape = (nameEndFrom fuel name).hasEscape := by
  induction fuel generalizing fuel' name name' cs with
  | zero =>
    obtain rfl : cs = [] := by
      rw [nameEndFrom, hrest] at hstop
      exact List.append_cancel_right (hstop.trans (List.nil_append back).symm)
    rw [nameEndFrom_stop (by rwa [hrest', List.nil_append])]
    exact ⟨hrest', hsame⟩
  | succ fuel ih =>
    obtain ⟨fuel', rfl⟩ := Nat.exists_eq_succ_of_ne_zero (Nat.ne_of_gt (Nat.zero_lt_of_lt hfuel))
    rcases nameEndFrom_succ fuel name with hstay | ⟨c, rest, hcs, hc, hgo⟩ | ⟨rest, bad, hcs, hgo⟩
    · obtain rfl : cs = [] := by
        rw [hstay, hrest] at hstop
        exact List.append_cancel_right (hstop.trans (List.nil_append back).symm)
      rw [nameEndFrom_stop (by rwa [hrest', List.nil_append]), hstay]
      exact ⟨hrest', hsame⟩
    · rw [hgo] at hstop ⊢
      obtain ⟨middle, hmiddle, -⟩ := leads_nameEndFrom fuel { name with stop := name.stop.skip 1 }
      rw [hstop] at hmiddle
      have htail : rest = middle ++ back := by simpa [hcs] using hmiddle
      obtain rfl : cs = c :: middle :=
        List.append_cancel_right (hrest.symm.trans (hcs.trans (congrArg (c :: ·) htail)))
      have hgo' : nameEndFrom (fuel' + 1) name' =
          nameEndFrom fuel' { name' with stop := name'.stop.skip 1 } := by
        rw [nameEndFrom, hrest']
        simp only [List.cons_append, hc, if_true]
      rw [hgo']
      exact ih hmiddle hstop (by simp [hrest']) hsame (Nat.lt_of_succ_lt_succ hfuel)
        fun hmem => hescape (List.mem_cons_of_mem _ hmem)
    · rw [hgo] at hstop ⊢
      obtain ⟨middle, hmiddle, -⟩ :=
        leads_nameEndFrom fuel ⟨name.stop.skip ((escapeExtent rest).1 + 2), true, bad⟩
      rw [hstop] at hmiddle
      have htail : rest.drop (escapeExtent rest).1 = middle ++ back := by simpa [hcs] using hmiddle
      have hle := escapeExtent_le rest
      have hsplit : rest = rest.take (escapeExtent rest).1 ++ middle ++ back := by
        rw [List.append_assoc, ← htail, List.take_append_drop]
      have htake : (rest.take (escapeExtent rest).1).length = (escapeExtent rest).1 :=
        List.length_take_of_le hle
      generalize rest.take (escapeExtent rest).1 = escape at hsplit htake
      obtain rfl : cs = '\\' :: 'u' :: (escape ++ middle) := by
        refine List.append_cancel_right (hrest.symm.trans (hcs.trans ?_))
        exact congrArg ('\\' :: 'u' :: ·) hsplit
      have hsame' : escapeExtent (escape ++ middle ++ back') = escapeExtent rest := by
        have hends := hescape List.mem_cons_self
        rw [hsplit] at htake ⊢
        exact escapeExtent_local (by rw [← htake]; simp) hends
      have hgo' : ∃ bad', nameEndFrom (fuel' + 1) name' =
          nameEndFrom fuel' ⟨name'.stop.skip ((escapeExtent rest).1 + 2), true, bad'⟩ := by
        rw [nameEndFrom, hrest', ← hsame']
        exact ⟨_, rfl⟩
      obtain ⟨bad', hgo'⟩ := hgo'
      rw [hgo']
      refine ih hmiddle hstop ?_ rfl ?_ fun hmem => hescape (by simp_all)
      · simp [hrest', ← htake]
      · simp only [List.length_cons, List.length_append] at hfuel
        omega

end Untype
