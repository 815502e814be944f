-- Integers up to 2 ^ 53 are numbers, and the constants of enums that are
-- worked out from them are those of the language: on 32 bits, or exact.
import Mathlib.Data.List.TakeWhile
import Mathlib.Data.Rat.Floor
import Untype.Erasure.Enums
import Untype.Proofs.Tokens.Quotes

namespace Untype

namespace Number

open Text

/-! ## Rounding -/

theorem abs_intCast (n : Int) : (n : Rat).abs = ((n.natAbs : Nat) : Rat) := by
  unfold Rat.abs
  split
  · rename_i h
    have : 0 ≤ n := by exact_mod_cast h
    rw [← Int.cast_natCast, Int.natAbs_of_nonneg this]
  · rename_i h
    have : n < 0 := by exact_mod_cast not_le.1 h
    rw [← Int.cast_natCast, Int.ofNat_natAbs_of_nonpos (by omega), Int.cast_neg]

theorem binade_natCast {m : Nat} (h : m ≠ 0) : binade (m : Rat) = m.log2 := by
  have hle : (2 : Rat) ^ ((m.log2 : Nat) : Int) ≤ (m : Rat) := by
    rw [zpow_natCast]
    exact_mod_cast Nat.log2_self_le h
  have hone : Nat.log2 1 = 0 := rfl
  simp only [binade, Rat.num_natCast, Rat.den_natCast, Int.natAbs_natCast, hone, Nat.cast_zero,
    sub_zero, if_pos hle]

theorem nearest_intCast (k : Int) : nearest (k : Rat) = k := by
  simp [nearest]

/-- A whole number is a multiple of its last place, as long as it has 53 digits at most. -/
theorem exists_mul_lastPlace {n : Int} (hzero : n ≠ 0) (h : n.natAbs ≤ 2 ^ 53) :
    ∃ k : Int, (n : Rat) = k * (2 : Rat) ^ lastPlace (n : Rat).abs := by
  rw [abs_intCast, lastPlace, binade_natCast (by omega)]
  rcases Nat.lt_or_eq_of_le h with hlt | heq
  · have hlog : n.natAbs.log2 < 53 := (Nat.log2_lt (by omega)).2 hlt
    obtain ⟨shift, hshift⟩ : ∃ shift : Nat, max ((n.natAbs.log2 : Int) - 52) (-1074) = -shift :=
      ⟨52 - n.natAbs.log2, by omega⟩
    refine ⟨n * 2 ^ shift, ?_⟩
    rw [hshift, zpow_neg, zpow_natCast]
    push_cast
    field_simp
  · have hlog : max ((n.natAbs.log2 : Int) - 52) (-1074) = 1 := by
      rw [heq, Nat.log2_two_pow]
      rfl
    refine ⟨n / 2, ?_⟩
    rw [hlog, zpow_one]
    have : n = n / 2 * 2 := by omega
    exact_mod_cast this

/-- Whole numbers up to 2 ^ 53 are numbers. -/
theorem value?_round {n : Int} (negative : Bool) (h : n.natAbs ≤ 2 ^ 53) :
    (round negative n).value? = some (n : Rat) := by
  by_cases hzero : n = 0
  · subst hzero
    rfl
  · obtain ⟨k, hk⟩ := exists_mul_lastPlace hzero h
    have hunit : (2 : Rat) ^ lastPlace (n : Rat).abs ≠ 0 := zpow_ne_zero _ two_ne_zero
    have hdigits : (n : Rat) / (2 : Rat) ^ lastPlace (n : Rat).abs = k := by
      rw [div_eq_iff hunit]
      exact hk
    have hn : (n : Rat) ≠ 0 := by exact_mod_cast hzero
    have hlimit : ¬ (2 : Rat) ^ (1024 : Nat) ≤ (n : Rat).abs := by
      rw [abs_intCast, not_le]
      exact_mod_cast lt_of_le_of_lt h (Nat.pow_lt_pow_right (by decide) (by decide))
    simp only [round, hdigits, nearest_intCast, ← hk, if_neg hn, if_neg hlimit, value?]

/-! ## Arithmetic -/

/-- The number is this integer. Both zeros are 0. -/
def Holds (x : Number) (n : Int) : Prop := x.value? = some (n : Rat)

/-- The integer in 32 bits with a sign: of those that differ from it by multiples of 2 ^ 32 the one
from -2 ^ 31 up to 2 ^ 31. -/
def signed (n : Int) : Int := n.bmod (2 ^ 32)

/-- The integer, if it is a number together with all below it. -/
def bounded? (n : Int) : Option Int := if n.natAbs ≤ 2 ^ 53 then some n else none

/-- What an operator gives for integers: bit by bit on 32 bits, or exactly. -/
def integer? (operator : TokenKind) (a b : Int) : Option Int :=
  let left := (a % (2 ^ 32 : Nat)).toNat
  let right := (b % (2 ^ 32 : Nat)).toNat
  let count := (b % 32).toNat
  match operator with
  | .ampersand => some (signed (left &&& right : Nat))
  | .bar => some (signed (left ||| right : Nat))
  | .caret => some (signed (left ^^^ right : Nat))
  | .lessThanLessThan => some (signed (a * 2 ^ count))
  | .greaterThanGreaterThan => some (signed a / 2 ^ count)
  | .greaterThanGreaterThanGreaterThan => some (left / 2 ^ count : Nat)
  | .plus => bounded? (a + b)
  | .minus => bounded? (a - b)
  | .asterisk => bounded? (a * b)
  | _ => none

variable {x y : Number} {a b c : Int} {n : Nat}
variable {d : Char} {ds : List Char} {w : BitVec 32}

theorem Holds.cases (h : x.Holds a) : (∃ negative, x = zero negative ∧ a = 0) ∨ x = finite a := by
  cases x with
  | nan | infinity => cases h
  | zero negative =>
    have hzero : (0 : Rat) = a := Option.some.inj h
    exact .inl ⟨negative, rfl, by exact_mod_cast hzero.symm⟩
  | finite value => exact .inr (congrArg finite (Option.some.inj h))

theorem Holds.neg (h : x.Holds a) : x.neg.Holds (-a) := by
  rcases h.cases with ⟨_, rfl, rfl⟩ | rfl
  · rfl
  · simp [Holds, Number.neg, value?]

theorem Holds.add (hx : x.Holds a) (hy : y.Holds b) (h : (a + b).natAbs ≤ 2 ^ 53) :
    (x.add y).Holds (a + b) := by
  rcases hx.cases with ⟨_, rfl, rfl⟩ | rfl <;> rcases hy.cases with ⟨_, rfl, rfl⟩ | rfl
  · rfl
  · rwa [Int.zero_add]
  · rwa [Int.add_zero]
  · rw [Number.add, ← Int.cast_add]
    exact value?_round false h

theorem Holds.mul (hx : x.Holds a) (hy : y.Holds b) (h : (a * b).natAbs ≤ 2 ^ 53) :
    (x.mul y).Holds (a * b) := by
  rcases hx.cases with ⟨_, rfl, rfl⟩ | rfl <;> rcases hy.cases with ⟨_, rfl, rfl⟩ | rfl
  · rfl
  · rw [Int.zero_mul]
    rfl
  · rw [Int.mul_zero]
    rfl
  · rw [Number.mul, ← Int.cast_mul]
    exact value?_round _ h

/-! ## Words -/

theorem Holds.toWord (h : x.Holds a) : x.toWord = BitVec.ofInt 32 a := by
  rw [Number.toWord, h]
  simp [truncate]

theorem Holds.shiftCount (h : x.Holds a) : x.shiftCount = (a % 32).toNat := by
  rw [Number.shiftCount, h.toWord, BitVec.toNat_ofInt]
  omega

theorem holds_ofSigned (h : w.toInt = a) : (ofSigned w).Holds a :=
  h ▸ value?_round false (by have := w.toInt_lt; have := w.le_toInt; omega)

theorem holds_ofUnsigned (h : (w.toNat : Int) = a) : (ofUnsigned w).Holds a :=
  h ▸ value?_round false (by have := w.isLt; omega)

theorem signed_congr (h : a % (2 ^ 32 : Nat) = b % (2 ^ 32 : Nat)) : signed a = signed b := by
  rw [signed, signed, ← Int.emod_bmod a, ← Int.emod_bmod b, h]

theorem Holds.complement (h : x.Holds a) : x.complement.Holds (signed (-a - 1)) := by
  rw [Number.complement, h.toWord]
  refine holds_ofSigned (BitVec.toInt_not.trans (signed_congr ?_))
  rw [BitVec.toNat_ofInt]
  omega

theorem Holds.shiftLeft (hx : x.Holds a) (hy : y.Holds b) :
    (x.shiftLeft y).Holds (signed (a * 2 ^ (b % 32).toNat)) := by
  rw [Number.shiftLeft, hx.toWord, hy.shiftCount]
  refine holds_ofSigned (BitVec.toInt_shiftLeft.trans (signed_congr ?_))
  rw [BitVec.toNat_ofInt, Nat.shiftLeft_eq, Int.natCast_mul, Int.toNat_of_nonneg (by omega)]
  simp [Int.mul_emod]

theorem Holds.shiftRight (hx : x.Holds a) (hy : y.Holds b) :
    (x.shiftRight y).Holds (signed a / 2 ^ (b % 32).toNat) := by
  rw [Number.shiftRight, hx.toWord, hy.shiftCount]
  refine holds_ofSigned ?_
  rw [BitVec.toInt_sshiftRight, BitVec.toInt_ofInt, Int.shiftRight_eq_div_pow, signed]
  push_cast
  rfl

theorem Holds.shiftRightUnsigned (hx : x.Holds a) (hy : y.Holds b) : (x.shiftRightUnsigned y).Holds
    ((a % (2 ^ 32 : Nat)).toNat / 2 ^ (b % 32).toNat : Nat) := by
  rw [Number.shiftRightUnsigned, hx.toWord, hy.shiftCount]
  refine holds_ofUnsigned ?_
  rw [BitVec.toNat_ushiftRight, BitVec.toNat_ofInt, Nat.shiftRight_eq_div_pow]

theorem Holds.bitwise (hx : x.Holds a) (hy : y.Holds b) (op : BitVec 32 → BitVec 32 → BitVec 32)
    (bits : Nat → Nat → Nat) (hop : ∀ v w, (op v w).toNat = bits v.toNat w.toNat) :
    (ofSigned (op x.toWord y.toWord)).Holds
      (signed (bits (a % (2 ^ 32 : Nat)).toNat (b % (2 ^ 32 : Nat)).toNat)) := by
  rw [hx.toWord, hy.toWord]
  refine holds_ofSigned ?_
  rw [BitVec.toInt_eq_toNat_bmod, hop, BitVec.toNat_ofInt, BitVec.toNat_ofInt, signed]

theorem bounded?_eq_some : bounded? a = some b ↔ a.natAbs ≤ 2 ^ 53 ∧ a = b := by
  simp [bounded?]

/-- Operators on numbers do what they do for integers. -/
theorem Holds.arithmetic (hx : x.Holds a) (hy : y.Holds b) {operator : TokenKind}
    (h : integer? operator a b = some c) :
    ∃ r, Erasure.Constant.arithmetic? operator x y = some r ∧ r.Holds c := by
  unfold integer? at h
  split at h
  case h_1 =>
    obtain rfl := Option.some.inj h
    exact ⟨_, rfl, hx.bitwise hy (· &&& ·) (· &&& ·) BitVec.toNat_and⟩
  case h_2 =>
    obtain rfl := Option.some.inj h
    exact ⟨_, rfl, hx.bitwise hy (· ||| ·) (· ||| ·) BitVec.toNat_or⟩
  case h_3 =>
    obtain rfl := Option.some.inj h
    exact ⟨_, rfl, hx.bitwise hy (· ^^^ ·) (· ^^^ ·) BitVec.toNat_xor⟩
  case h_4 =>
    obtain rfl := Option.some.inj h
    exact ⟨_, rfl, hx.shiftLeft hy⟩
  case h_5 =>
    obtain rfl := Option.some.inj h
    exact ⟨_, rfl, hx.shiftRight hy⟩
  case h_6 =>
    obtain rfl := Option.some.inj h
    exact ⟨_, rfl, hx.shiftRightUnsigned hy⟩
  case h_7 =>
    obtain ⟨hle, rfl⟩ := bounded?_eq_some.1 h
    exact ⟨_, rfl, hx.add hy hle⟩
  case h_8 =>
    obtain ⟨hle, rfl⟩ := bounded?_eq_some.1 h
    exact ⟨_, rfl, hx.add hy.neg hle⟩
  case h_9 =>
    obtain ⟨hle, rfl⟩ := bounded?_eq_some.1 h
    exact ⟨_, rfl, hx.mul hy hle⟩
  case h_10 => cases h

/-! ## Digits -/

theorem Holds.text_eq (h : x.Holds a) (hle : a.natAbs ≤ 2 ^ 53) : x.text = toString a := by
  rcases h.cases with ⟨_, rfl, rfl⟩ | rfl
  · rfl
  · have hlt : ((a.natAbs : Nat) : Rat) < (10 : Rat) ^ (21 : Nat) := by
      exact_mod_cast Nat.lt_of_le_of_lt hle (by decide)
    have hmagnitude : magnitudeText (a : Rat).abs = toString a.natAbs := by
      rw [magnitudeText, abs_intCast, if_pos ⟨Rat.den_natCast _, hlt⟩, Rat.num_natCast,
        Int.natAbs_natCast]
    rw [text, hmagnitude]
    cases a with
    | ofNat n =>
      rw [if_neg (by simp)]
      rfl
    | negSucc n =>
      rw [if_pos (by exact_mod_cast Int.negSucc_lt_zero n)]
      rfl

theorem digitValue_digitChar : ∀ d < 10, digitValue d.digitChar = d := by decide

theorem ofDigits_toDigits (n : Nat) : ofDigits 10 (Nat.toDigits 10 n) = n := by
  induction n using Nat.strongRecOn with
  | ind n ih =>
    rw [Nat.toDigits_eq_if (by decide)]
    split
    · rename_i hlt
      simp [ofDigits, digitValue_digitChar n hlt]
    · have hrest := ih (n / 10) (by omega)
      rw [ofDigits] at hrest ⊢
      rw [List.foldl_append, hrest, List.foldl_cons, List.foldl_nil,
        digitValue_digitChar _ (Nat.mod_lt n (by decide))]
      omega

/-- A number of several digits does not start with 0. -/
theorem toDigits_eq_zero_cons {rest : List Char} (h : Nat.toDigits 10 n = '0' :: rest) :
    rest = [] := by
  induction n using Nat.strongRecOn generalizing rest with
  | ind n ih =>
    rw [Nat.toDigits_eq_if (by decide)] at h
    split at h
    · exact (List.cons.inj h).2.symm
    · rename_i hlt
      cases hfront : Nat.toDigits 10 (n / 10) with
      | nil => simp [Nat.toDigits_ne_nil] at hfront
      | cons c front =>
        rw [hfront] at h
        obtain ⟨rfl, -⟩ := List.cons.inj h
        obtain rfl := ih (n / 10) (by omega) hfront
        have hvalue := ofDigits_toDigits (n / 10)
        rw [hfront] at hvalue
        have : n / 10 = 0 := hvalue.symm
        omega

theorem isDigit_of_mem_toDigits (h : d ∈ Nat.toDigits 10 n) : isDigit d :=
  Nat.isDigit_of_mem_toDigits (by decide) (by decide) h

theorem ne_of_isDigit (h : isDigit d) (c : Char) (hc : isDigit c = false) : d ≠ c := by
  rintro rfl
  cases hc.symm.trans h

theorem readUnsigned_toDigits (hle : n ≤ 2 ^ 53) :
    ∃ r, readUnsigned (Nat.toDigits 10 n) = some r ∧ r.Holds n := by
  have hall : ∀ d ∈ Nat.toDigits 10 n, isDigit d := fun d hd => isDigit_of_mem_toDigits hd
  have htake : (Nat.toDigits 10 n).takeWhile isDigit = Nat.toDigits 10 n :=
    List.takeWhile_eq_self_iff.2 hall
  have hdrop : (Nat.toDigits 10 n).dropWhile isDigit = [] := by simpa using hall
  refine ⟨ofDecimal n 0, ?_, ?_⟩
  · simp [readUnsigned, htake, hdrop, Nat.toDigits_ne_nil, readExponent, ofDigits_toDigits]
  · unfold ofDecimal
    split
    · rename_i hzero
      subst hzero
      rfl
    · rename_i hzero
      have hlog : n.log2 < 54 := (Nat.log2_lt hzero).2 (by omega)
      rw [if_neg (by omega), if_neg (by omega)]
      have hround := value?_round (n := n) false (by omega)
      simpa [Holds] using hround

theorem ofLiteral?_toString (hle : n ≤ 2 ^ 53) :
    ∃ r, ofLiteral? (toString n) = some r ∧ r.Holds n := by
  obtain ⟨r, hread, hr⟩ := readUnsigned_toDigits hle
  have hdigit : ∀ {d : Char}, d ∈ Nat.toDigits 10 n → isDigit d := isDigit_of_mem_toDigits
  have hchars : (toString n).toList.filter (· != '_') = Nat.toDigits 10 n := by
    rw [Nat.toString_eq_repr, Nat.toList_repr, List.filter_eq_self]
    exact fun d hd => by simpa using ne_of_isDigit (hdigit hd) '_' rfl
  refine ⟨r, ?_, hr⟩
  rw [ofLiteral?, hchars]
  have hdecimal : readDecimal (Nat.toDigits 10 n) = some r := by
    cases hcs : Nat.toDigits 10 n with
    | nil => exact absurd hcs Nat.toDigits_ne_nil
    | cons d ds =>
      rw [hcs] at hread
      have hd : isDigit d := hdigit (by simp [hcs])
      simp [readDecimal, ne_of_isDigit hd '-' rfl, ne_of_isDigit hd '+' rfl, hread]
  unfold ofLiteralChars
  split
  · rename_i c d rest hcs
    cases toDigits_eq_zero_cons hcs
  · rename_i c hcs
    cases toDigits_eq_zero_cons hcs
  · exact hdecimal

theorem digitCount_of_all {cs : List Char} {started : Bool} (h : ∀ d ∈ cs, isDigit d) :
    digitCount isDigit started cs = cs.length := by
  induction cs generalizing started with
  | nil => rfl
  | cons d cs ih => simp_all [digitCount]

theorem isBlankOrLineBreak_of_isDigit (h : isDigit d) : isBlankOrLineBreak d = false := by
  have hrange : 48 ≤ d.toNat ∧ d.toNat < 58 := by
    simpa [isDigit, Char.le_def, UInt32.le_iff_toNat_le, Nat.lt_succ_iff] using h
  have hall : ∀ k < 58, 48 ≤ k → isBlankOrLineBreak (Char.ofNat k) = false := by decide
  exact Char.ofNat_toNat d ▸ hall d.toNat hrange.2 hrange.1

theorem numberEnd_digits (h : ∀ c ∈ d :: ds, isDigit c) :
    (numberEnd ⟨0, d :: ds⟩).rest = [] := by
  have hbase : digitsOfBase? (d :: ds) = none := by
    unfold digitsOfBase?
    split
    · rename_i c rest hcs
      have hne := ne_of_isDigit (h c (by simp [hcs]))
      simp [baseDigits, hne 'x' rfl, hne 'X' rfl, hne 'o' rfl, hne 'O' rfl, hne 'b' rfl,
        hne 'B' rfl]
    · rfl
  have hskip : (Cursor.skipDigits isDigit ⟨0, d :: ds⟩).rest = [] := by
    simp [Cursor.skipDigits, digitCount_of_all h]
  simp [numberEnd, hbase, Cursor.skipDecimal, hskip, Cursor.skipExponent]

theorem scanAll_digits {text : String} (htext : text.toList = d :: ds)
    (h : ∀ c ∈ d :: ds, isDigit c) : ∃ token last : Scanner,
    (Scanner.ofText text).scanAll = [token, last] ∧ token.kind = .numericLiteral ∧
      token.text = text ∧ last.kind = .endOfFile := by
  have hd : isDigit d := h d List.mem_cons_self
  have hne := ne_of_isDigit hd
  have hsolid : triviaEnd .between {} 0 (d :: ds) = ⟨⟨0, d :: ds⟩, {}, []⟩ := by
    have hsolid : IsSolid (d :: ds) :=
      ⟨isBlankOrLineBreak_of_isDigit hd, fun h => absurd h (hne '/' rfl)⟩
    exact triviaEnd_of_isSolid hsolid {} fun _ h => hne '#' rfl (List.cons.inj h).1
  have hread : readToken {} ⟨0, d :: ds⟩ = readNumber {} ⟨0, d :: ds⟩ := by
    simp [readToken, hne '\x22' rfl, hne '\x27' rfl, hne '\x60' rfl, hd]
  obtain ⟨-, hstop, hkind⟩ := readNumber_eq {} ⟨0, d :: ds⟩
  rw [if_neg (by simp [numberEnd_digits h])] at hstop hkind
  have hhere : (Scanner.ofText text).scan.here = numberEnd ⟨0, d :: ds⟩ := by
    simp only [Scanner.scan, Scanner.ofText, Cursor.ofText, htext, hsolid, hread, hstop]
  have hrest : (Scanner.ofText text).scan.here.rest = [] := by rw [hhere, numberEnd_digits h]
  have hscan : (Scanner.ofText text).scan.kind = .numericLiteral := by
    simp only [Scanner.scan, Scanner.ofText, Cursor.ofText, htext, hsolid, hread, hkind]
  refine ⟨_, _, scanAll_whole hrest (by simp [hscan]) (by simp [Scanner.ofText, Cursor.ofText,
    htext]), hscan, ?_, (scan_end hrest).1⟩
  obtain ⟨front, hfront, hoffset⟩ := leads_numberEnd ⟨0, d :: ds⟩
  have hstart : (Scanner.ofText text).scan.start = ⟨0, d :: ds⟩ := by
    simp only [Scanner.scan, Scanner.ofText, Cursor.ofText, htext, hsolid]
  rw [Scanner.text, hstart, hhere, Cursor.textTo_of_append hfront hoffset,
    ← String.ofList_toList (s := text), htext]
  rw [numberEnd_digits h, List.append_nil] at hfront
  exact congrArg String.ofList hfront.symm

theorem scanAll_toString (n : Nat) : ∃ token last : Scanner,
    (Scanner.ofText (toString n)).scanAll = [token, last] ∧ token.kind = .numericLiteral ∧
      token.text = toString n ∧ last.kind = .endOfFile := by
  have hchars : (toString n).toList = Nat.toDigits 10 n := by
    rw [Nat.toString_eq_repr, Nat.toList_repr]
  cases hcs : Nat.toDigits 10 n with
  | nil => exact absurd hcs Nat.toDigits_ne_nil
  | cons d ds =>
    exact scanAll_digits (hchars.trans hcs) fun c hc => isDigit_of_mem_toDigits (hcs ▸ hc)

end Number

namespace Erasure

/-- The expression is known to be this integer. -/
def FoldsTo (source : String) (known : KnownMembers) (node : Node) (n : Int) : Prop :=
  ∃ x, constant? source known node = some (.number x) ∧ x.Holds n

/-- Operators on integers are worked out as the language has it: complement, bits and shifts on 32
bits, and sums, differences and products exactly as long as they are bounded. An integer that is
bounded itself is written in decimal. Without its sign, its text is one number for the scanner, and
has its magnitude as value. -/
theorem constant?_integers {source : String} {known : KnownMembers} {left right : Node} {a b : Int}
    (hleft : FoldsTo source known left a) (hright : FoldsTo source known right b)
    (ha : a.natAbs ≤ 2 ^ 53) :
    (∀ operator span marks rest, operator.token? = some .tilde → FoldsTo source known
      (.branch .prefixUnaryExpression span marks (operator :: left :: rest))
        (Number.signed (-a - 1))) ∧
    (∀ operator kind span marks rest c, operator.token? = some kind →
      Number.integer? kind a b = some c → FoldsTo source known
        (.branch .binaryExpression span marks (left :: operator :: right :: rest)) c) ∧
    (∀ x : Number, x.Holds a → x.text = toString a) ∧
    (∃ token last : Scanner, (Scanner.ofText (toString a.natAbs)).scanAll = [token, last] ∧
      token.kind = .numericLiteral ∧ token.text = toString a.natAbs ∧ last.kind = .endOfFile) ∧
    ∃ x, Number.ofLiteral? (toString a.natAbs) = some x ∧ x.Holds a.natAbs := by
  obtain ⟨x, hx, hxa⟩ := hleft
  obtain ⟨y, hy, hyb⟩ := hright
  refine ⟨?_, ?_, fun x hx => hx.text_eq ha, Number.scanAll_toString _,
    Number.ofLiteral?_toString ha⟩
  · intro operator span marks rest hoperator
    refine ⟨_, ?_, hxa.complement⟩
    simp [constant?, hoperator, hx, Constant.unary?]
  · intro operator kind span marks rest c hoperator hc
    obtain ⟨r, hr, hrc⟩ := hxa.arithmetic hyb hc
    refine ⟨r, ?_, hrc⟩
    simp [constant?, hoperator, hx, hy, Constant.binary?, hr]

/-- An integer beyond 32 bits is shifted by a negative count. -/
theorem constant?_integers_shift :
    let known : KnownMembers :=
      ⟨"E", [("A", .number (.finite 5000000001)), ("B", .number (.finite (-3)))]⟩
    let name (span : Span) : Node := .leaf { kind := .identifier, span }
    FoldsTo "A << B" known (.branch .binaryExpression ⟨0, 0, 6⟩ {}
      [name ⟨0, 0, 1⟩, .leaf { kind := .lessThanLessThan, span := ⟨1, 2, 4⟩ }, name ⟨4, 5, 6⟩])
      536870912 := by
  intro known name
  have hleft : FoldsTo "A << B" known (name ⟨0, 0, 1⟩) 5000000001 :=
    ⟨.finite 5000000001, by rfl, by rfl⟩
  have hright : FoldsTo "A << B" known (name ⟨4, 5, 6⟩) (-3) := ⟨.finite (-3), by rfl, by rfl⟩
  exact (constant?_integers hleft hright (by decide)).2.1 _ .lessThanLessThan _ _ _ _ rfl
    (by decide)

end Erasure

end Untype
