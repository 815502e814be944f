-- Reading a source file undoes writing it: a text comes back from its bytes
-- in UTF-8, and from those in UTF-16 behind the mark that tells their order.
import Untype.Proofs.Places
import Untype.Text.Encoding

namespace Untype.Text

variable {u : Nat}

/-! ## Bytes as lists -/

theorem toList_loop (bytes : ByteArray) (i : Nat) (read : List UInt8) :
    ByteArray.toList.loop bytes i read = read.reverse ++ bytes.data.toList.drop i := by
  fun_induction ByteArray.toList.loop bytes i read with
  | case1 i read hlt ih =>
    have hlength : i < bytes.data.toList.length := by simpa using hlt
    have hget : bytes.get! i = bytes.data.toList[i] := by
      have hbang : bytes.get! i = bytes.data[i]! := by cases bytes; rfl
      rw [hbang, getElem!_pos bytes.data i hlt, Array.getElem_toList]
    rw [ih, List.drop_eq_getElem_cons hlength, hget]
    simp
  | case2 i read hlt =>
    rw [List.drop_eq_nil_of_le (by simpa using Nat.le_of_not_lt hlt)]
    simp

theorem toList_toByteArray (bytes : List UInt8) : bytes.toByteArray.toList = bytes := by
  rw [ByteArray.toList, toList_loop]
  simp

/-! ## UTF-8 -/

theorem forall_mem_utf8EncodeChar (c : Char) : ∀ b ∈ String.utf8EncodeChar c, b.toNat < 0xf8 := by
  unfold String.utf8EncodeChar
  dsimp only
  repeat' split
  all_goals
    simp only [List.forall_mem_cons, List.not_mem_nil, false_imp_iff, implies_true, and_true,
      UInt8.toNat_ofNat']
    omega

theorem head?_toUTF8 {text : String} {b : UInt8} (h : text.toUTF8.toList.head? = some b) :
    b.toNat < 0xf8 := by
  have hbytes : text.toUTF8.toList = text.toList.flatMap String.utf8EncodeChar := by
    rw [String.toUTF8, ← String.utf8Encode_toList, List.utf8Encode, toList_toByteArray]
  rw [hbytes] at h
  obtain ⟨c, -, hb⟩ := List.mem_flatMap.1 (List.mem_of_mem_head? h)
  exact forall_mem_utf8EncodeChar c b hb

theorem decode_toUTF8 (text : String) : decode text.toUTF8 = .ok text := by
  have hfirst := @head?_toUTF8 text
  unfold decode
  split
  iterate 2
    · rename_i hbytes
      rw [hbytes] at hfirst
      exact absurd (hfirst rfl) (by decide)
  · rw [String.toUTF8, fromUTF8?_toByteArray]

/-! ## UTF-16 -/

/-- The units of a character: past U+FFFF, a pair of surrogates. -/
def unitsOf (c : Char) : List Nat :=
  if c.toNat < 0x10000 then
    [c.toNat]
  else
    [0xd800 + (c.toNat - 0x10000) / 0x400, 0xdc00 + (c.toNat - 0x10000) % 0x400]

/-- The two bytes of a unit. -/
def bytesOf (order : ByteOrder) (u : Nat) : List UInt8 :=
  let high := UInt8.ofNat (u / 256)
  let low := UInt8.ofNat (u % 256)
  match order with
  | .bigEndian => [high, low]
  | .littleEndian => [low, high]

/-- The bytes of a text in UTF-16, without a mark. -/
def utf16 (order : ByteOrder) (text : String) : List UInt8 :=
  (text.toList.flatMap unitsOf).flatMap (bytesOf order)

theorem toNat_lt (c : Char) : c.toNat < 0xd800 ∨ 0xdfff < c.toNat ∧ c.toNat < 0x110000 := c.valid

theorem lt_of_mem_unitsOf {c : Char} (h : u ∈ unitsOf c) : u < 0x10000 := by
  have hvalid := toNat_lt c
  unfold unitsOf at h
  split at h <;> simp only [List.mem_cons, List.not_mem_nil, or_false] at h <;> omega

theorem units_bytesOf (order : ByteOrder) (extra : Option UInt8) {us : List Nat}
    (h : ∀ u ∈ us, u < 0x10000) :
    units order (us.flatMap (bytesOf order) ++ extra.toList) = us := by
  induction us with
  | nil => cases extra <;> rfl
  | cons u us ih =>
    obtain ⟨hu, hus⟩ := List.forall_mem_cons.1 h
    have hrest := ih hus
    cases order <;>
      simp only [List.flatMap_cons, bytesOf, List.cons_append, List.nil_append, units, hrest,
        UInt8.toNat_ofNat', List.cons.injEq, and_true] <;>
      omega

theorem ofUnits_cons (us : List Nat) (h : u < 0xd800 ∨ 0xdfff < u) :
    ofUnits (u :: us) = Char.ofNat u :: ofUnits us := by
  have hhigh : isHighSurrogate u = false := by
    simp only [isHighSurrogate, Bool.and_eq_false_imp, decide_eq_true_eq, decide_eq_false_iff_not]
    omega
  have hlow : isLowSurrogate u = false := by
    simp only [isLowSurrogate, Bool.and_eq_false_imp, decide_eq_true_eq, decide_eq_false_iff_not]
    omega
  cases us <;> simp [ofUnits, hhigh, hlow]

/-- Characters come back from their units. -/
theorem ofUnits_unitsOf (cs : List Char) : ofUnits (cs.flatMap unitsOf) = cs := by
  induction cs with
  | nil => rfl
  | cons c cs ih =>
    have hvalid := toNat_lt c
    rw [List.flatMap_cons, unitsOf]
    split
    · rw [List.singleton_append, ofUnits_cons _ (by omega), Char.ofNat_toNat, ih]
    · have hhigh : isHighSurrogate (0xd800 + (c.toNat - 0x10000) / 0x400) := by
        simp only [isHighSurrogate, Bool.and_eq_true, decide_eq_true_eq]
        omega
      have hlow : isLowSurrogate (0xdc00 + (c.toNat - 0x10000) % 0x400) := by
        simp only [isLowSurrogate, Bool.and_eq_true, decide_eq_true_eq]
        omega
      have hsame : 0x10000 + (0xd800 + (c.toNat - 0x10000) / 0x400 - 0xd800) * 0x400 +
          (0xdc00 + (c.toNat - 0x10000) % 0x400 - 0xdc00) = c.toNat := by omega
      rw [List.cons_append, List.cons_append, List.nil_append, ofUnits, if_pos hhigh,
        if_pos hlow, hsame, Char.ofNat_toNat, ih]

theorem ofUnits_utf16 (order : ByteOrder) (text : String) (extra : Option UInt8) :
    String.ofList (ofUnits (units order (utf16 order text ++ extra.toList))) = text := by
  have hunits : ∀ u ∈ text.toList.flatMap unitsOf, u < 0x10000 := by
    intro u hu
    obtain ⟨c, -, hc⟩ := List.mem_flatMap.1 hu
    exact lt_of_mem_unitsOf hc
  rw [utf16, units_bytesOf order extra hunits, ofUnits_unitsOf, String.ofList_toList]

/-- Every text is read from its bytes in UTF-8, a byte order mark in front included, and from those
in UTF-16 behind the mark of their order, whether or not an odd byte follows them. -/
theorem decode_encodings (text : String) :
    decode text.toUTF8 = .ok text ∧ ∀ extra : Option UInt8,
      decode (0xff :: 0xfe :: (utf16 .littleEndian text ++ extra.toList)).toByteArray = .ok text ∧
      decode (0xfe :: 0xff :: (utf16 .bigEndian text ++ extra.toList)).toByteArray = .ok text := by
  refine ⟨decode_toUTF8 text, fun extra => ⟨?_, ?_⟩⟩
  · rw [decode, toList_toByteArray]
    exact congrArg Except.ok (ofUnits_utf16 .littleEndian text extra)
  · rw [decode, toList_toByteArray]
    exact congrArg Except.ok (ofUnits_utf16 .bigEndian text extra)

example : utf16 .littleEndian "a😀" = [0x61, 0x00, 0x3d, 0xd8, 0x00, 0xde] := by decide

end Untype.Text
