-- Places in a text. A cursor leads to another one if the characters between
-- them account for the distance in bytes. Every reading function of the
-- scanner leads from where it starts to where it stops.
import Untype.Token.Scanner

namespace Untype

open Untype.Text

/-! ## Bytes -/

namespace Text

variable {text : String}

@[simp]
theorem byteLength_nil : byteLength [] = 0 := rfl

@[simp]
theorem byteLength_cons (c : Char) (cs : List Char) :
    byteLength (c :: cs) = c.utf8Size + byteLength cs := rfl

@[simp]
theorem byteLength_append (as bs : List Char) :
    byteLength (as ++ bs) = byteLength as + byteLength bs := by
  induction as with
  | nil => simp
  | cons c as ih => simp [ih, Nat.add_assoc]

theorem takeBytes_append (front back : List Char) :
    takeBytes (byteLength front) (front ++ back) = front := by
  induction front with
  | nil =>
    cases back with
    | nil => rfl
    | cons c back => simp [takeBytes, Nat.ne_of_gt c.utf8Size_pos]
  | cons c front ih => simp [takeBytes, ih]

theorem utf8ByteSize_ofList (cs : List Char) : (String.ofList cs).utf8ByteSize = byteLength cs := by
  induction cs with
  | nil => rfl
  | cons c cs ih =>
    rw [← List.singleton_append, String.ofList_append, String.utf8ByteSize_append, ih]
    simp

theorem byteLength_toList (text : String) : byteLength text.toList = text.utf8ByteSize := by
  rw [← utf8ByteSize_ofList, String.ofList_toList]

theorem fromUTF8?_toByteArray (text : String) : String.fromUTF8? text.toByteArray = some text :=
  dif_pos text.isValidUTF8

theorem slice?_middle (front middle back : String) :
    slice? (front ++ middle ++ back) front.utf8ByteSize (front.utf8ByteSize + middle.utf8ByteSize) =
      some middle := by
  have hbytes : (front ++ middle ++ back).toByteArray.extract front.utf8ByteSize
      (front.utf8ByteSize + middle.utf8ByteSize) = middle.toByteArray := by
    rw [String.append_assoc, String.toByteArray_append, String.toByteArray_append]
    have hdrop := ByteArray.extract_append_size_add (a := front.toByteArray)
      (b := middle.toByteArray ++ back.toByteArray) (i := 0) (j := middle.utf8ByteSize)
    rw [Nat.add_zero, String.size_toByteArray] at hdrop
    rw [hdrop]
    exact ByteArray.extract_append_eq_left rfl
  rw [slice?, if_pos (by simp), hbytes, fromUTF8?_toByteArray]

/-- A byte offset between two characters, or at an end of the text. -/
def Boundary (text : String) (offset : Nat) : Prop := (String.Pos.Raw.mk offset).IsValid text

theorem boundary_iff {offset : Nat} :
    Boundary text offset ↔
      ∃ front back, text.toList = front ++ back ∧ byteLength front = offset := by
  unfold Boundary
  rw [String.Pos.Raw.isValid_iff_exists_append]
  constructor
  · rintro ⟨front, back, rfl, hoffset⟩
    refine ⟨front.toList, back.toList, String.toList_append, ?_⟩
    rw [byteLength_toList]
    exact (congrArg String.Pos.Raw.byteIdx hoffset).symm
  · rintro ⟨front, back, htext, rfl⟩
    refine ⟨.ofList front, .ofList back, ?_, ?_⟩
    · rw [← String.ofList_append, ← htext, String.ofList_toList]
    · rw [String.rawEndPos, utf8ByteSize_ofList]

theorem eq_nil_of_byteLength {cs : List Char} (h : byteLength cs = 0) : cs = [] := by
  cases cs with
  | nil => rfl
  | cons c cs =>
    have := c.utf8Size_pos
    simp at h
    omega

theorem front_of_le {as as' bs bs' : List Char} (h : as ++ as' = bs ++ bs')
    (hle : byteLength as ≤ byteLength bs) : ∃ middle, bs = as ++ middle ∧ as' = middle ++ bs' := by
  obtain ⟨middle, rfl, rfl⟩ | ⟨middle, rfl, rfl⟩ := List.append_eq_append_iff.1 h
  · exact ⟨middle, rfl, rfl⟩
  · have hmiddle : middle = [] := eq_nil_of_byteLength (by simp at hle; omega)
    subst hmiddle
    exact ⟨[], by simp, rfl⟩

theorem slice?_eq_ofList {front middle back : List Char}
    (h : text.toList = front ++ middle ++ back) :
    slice? text (byteLength front) (byteLength (front ++ middle)) = some (.ofList middle) := by
  have hslice := slice?_middle (.ofList front) (.ofList middle) (.ofList back)
  rw [← String.ofList_append, ← String.ofList_append, ← h, String.ofList_toList,
    utf8ByteSize_ofList, utf8ByteSize_ofList] at hslice
  rwa [byteLength_append]

theorem slice_eq_ofList {front middle back : List Char}
    (h : text.toList = front ++ middle ++ back) :
    slice text (byteLength front) (byteLength (front ++ middle)) = .ofList middle := by
  rw [slice, slice?_eq_ofList h, Option.getD_some]

@[simp]
theorem slice_self (text : String) (i : Nat) : slice text i i = "" := by
  unfold slice slice?
  split
  · rw [ByteArray.extract_same, ← String.toByteArray_empty, fromUTF8?_toByteArray]
    rfl
  · rfl

theorem slice_append {i j k : Nat} (hi : Boundary text i) (hj : Boundary text j)
    (hk : Boundary text k) (hij : i ≤ j) (hjk : j ≤ k) :
    slice text i j ++ slice text j k = slice text i k := by
  obtain ⟨front, rest, htext, rfl⟩ := boundary_iff.1 hi
  obtain ⟨front', rest', htext', rfl⟩ := boundary_iff.1 hj
  obtain ⟨first, rfl, rfl⟩ := front_of_le (htext.symm.trans htext') hij
  obtain ⟨front'', back, htext'', rfl⟩ := boundary_iff.1 hk
  obtain ⟨second, rfl, rfl⟩ := front_of_le (htext'.symm.trans htext'') hjk
  have hboth : text.toList = front ++ (first ++ second) ++ back := by
    rw [htext'', List.append_assoc front]
  rw [slice_eq_ofList htext', slice_eq_ofList htext'', List.append_assoc front,
    slice_eq_ofList hboth, String.ofList_append]

theorem utf8ByteSize_slice {i j : Nat} (hi : Boundary text i) (hj : Boundary text j) (hij : i ≤ j) :
    (slice text i j).utf8ByteSize = j - i := by
  obtain ⟨front, rest, htext, rfl⟩ := boundary_iff.1 hi
  obtain ⟨front', rest', htext', rfl⟩ := boundary_iff.1 hj
  obtain ⟨middle, rfl, rfl⟩ := front_of_le (htext.symm.trans htext') hij
  rw [slice_eq_ofList htext', utf8ByteSize_ofList, byteLength_append]
  omega

theorem utf8ByteSize_slice_le (text : String) (i j : Nat) :
    (slice text i j).utf8ByteSize ≤ text.utf8ByteSize := by
  unfold slice slice?
  split
  · rename_i hrange
    unfold String.fromUTF8?
    split
    · have hsize : (text.toByteArray.extract i j).size ≤ text.utf8ByteSize := by
        rw [ByteArray.size_extract, String.size_toByteArray]
        omega
      exact hsize
    · simp
  · simp

theorem slice_all (text : String) : slice text 0 text.utf8ByteSize = text := by
  have h := slice?_middle "" text ""
  simp_all [slice]

end Text

/-! ## Cursors -/

namespace Cursor

variable {a b here : Cursor} {c : Char} {text : String} {rest : List Char}

/-- The second place comes after the first one in the same text, or is the same place. -/
def Leads (a b : Cursor) : Prop :=
  ∃ middle, a.rest = middle ++ b.rest ∧ b.offset = a.offset + byteLength middle

theorem textTo_of_append {front : List Char} (hrest : a.rest = front ++ b.rest)
    (hoffset : b.offset = a.offset + byteLength front) : a.textTo b = .ofList front := by
  rw [textTo, hrest, hoffset, Nat.add_sub_cancel_left, takeBytes_append]

theorem Leads.refl (a : Cursor) : a.Leads a := ⟨[], by simp⟩

theorem Leads.trans {c : Cursor} (hab : a.Leads b) (hbc : b.Leads c) : a.Leads c := by
  obtain ⟨front, hfront, hb⟩ := hab
  obtain ⟨back, hback, hc⟩ := hbc
  refine ⟨front ++ back, ?_, ?_⟩
  · rw [hfront, hback, List.append_assoc]
  · rw [hc, hb, byteLength_append, Nat.add_assoc]

theorem Leads.le (h : a.Leads b) : a.offset ≤ b.offset := by
  obtain ⟨middle, -, hb⟩ := h
  omega

theorem Leads.length_le (h : a.Leads b) : b.rest.length ≤ a.rest.length := by
  obtain ⟨front, hrest, -⟩ := h
  rw [hrest, List.length_append]
  omega

theorem Leads.length_lt (h : a.Leads b) (hlt : a.offset < b.offset) :
    b.rest.length < a.rest.length := by
  obtain ⟨front, hrest, hoffset⟩ := h
  cases front with
  | nil => simp [hoffset] at hlt
  | cons c front =>
    rw [hrest, List.length_append, List.length_cons]
    omega

theorem Leads.boundary (h : (ofText text).Leads here) : Boundary text here.offset := by
  obtain ⟨front, hfront, hoffset⟩ := h
  exact boundary_iff.2 ⟨front, here.rest, hfront, by rw [hoffset]; simp [ofText]⟩

theorem Leads.at_end (h : (ofText text).Leads here) (hrest : here.rest = []) :
    here.offset = text.utf8ByteSize := by
  obtain ⟨front, hfront, hoffset⟩ := h
  rw [hrest, List.append_nil] at hfront
  rw [hoffset, ← hfront, ← byteLength_toList]
  simp [ofText]

/-- Two places of a text with one offset are one place. -/
theorem Leads.eq_of_offset (ha : (ofText text).Leads a) (hb : (ofText text).Leads b)
    (h : a.offset = b.offset) : a = b := by
  obtain ⟨front, hfront, hoffset⟩ := ha
  obtain ⟨front', hfront', hoffset'⟩ := hb
  obtain ⟨middle, rfl, hrest⟩ := front_of_le (hfront.symm.trans hfront')
    (by omega : byteLength front ≤ byteLength front')
  obtain rfl : middle = [] := eq_nil_of_byteLength (by rw [byteLength_append] at hoffset'; omega)
  obtain ⟨offset, rest⟩ := a
  obtain ⟨offset', rest'⟩ := b
  simp_all

theorem leads_cons (offset : Nat) (c : Char) (rest : List Char) :
    Leads ⟨offset, c :: rest⟩ ⟨offset + c.utf8Size, rest⟩ := ⟨[c], by simp⟩

theorem leads_ascii (offset : Nat) (hc : c.utf8Size = 1) :
    Leads ⟨offset, c :: rest⟩ ⟨offset + 1, rest⟩ := ⟨[c], by simp [hc]⟩

theorem leads_skip (n : Nat) (here : Cursor) : here.Leads (here.skip n) := by
  fun_induction Cursor.skip n here with
  | case1 here => exact .refl here
  | case2 n offset => exact .refl _
  | case3 n offset c rest ih => exact (leads_cons offset c rest).trans ih

theorem lt_skip {n : Nat} (hn : 0 < n) (offset : Nat) (c : Char) (rest : List Char) :
    offset < ((⟨offset, c :: rest⟩ : Cursor).skip n).offset := by
  obtain ⟨n, rfl⟩ := Nat.exists_eq_succ_of_ne_zero (Nat.ne_of_gt hn)
  have hle := (leads_skip n ⟨offset + c.utf8Size, rest⟩).le
  have hpos := c.utf8Size_pos
  rw [Cursor.skip]
  dsimp only at hle
  omega

theorem leads_skipWhile (p : Char → Bool) (offset : Nat) (cs : List Char) :
    Leads ⟨offset, cs⟩ (skipWhile p offset cs) := by
  fun_induction skipWhile p offset cs with
  | case1 offset => exact .refl _
  | case2 offset c rest _ ih => exact (leads_cons offset c rest).trans ih
  | case3 offset c rest _ => exact .refl _

theorem lt_skipWhile {p : Char → Bool} (hc : p c) (offset : Nat) (rest : List Char) :
    offset < (skipWhile p offset (c :: rest)).offset := by
  have hle := (leads_skipWhile p (offset + c.utf8Size) rest).le
  have hpos := c.utf8Size_pos
  rw [skipWhile, if_pos hc]
  dsimp only at hle
  omega

theorem leads_skipDigits (isValid : Char → Bool) (here : Cursor) :
    here.Leads (here.skipDigits isValid) := leads_skip _ here

theorem leads_skipExponent (here : Cursor) : here.Leads here.skipExponent := by
  unfold skipExponent
  repeat' split
  all_goals first
    | exact .refl here
    | exact (leads_skip _ here).trans (leads_skipDigits _ _)

theorem leads_skipDecimal (here : Cursor) : here.Leads here.skipDecimal := by
  refine Leads.trans ?_ (leads_skipExponent _)
  have hwhole := leads_skipDigits isDigit here
  split
  · exact hwhole.trans ((leads_skip 1 _).trans (leads_skipDigits _ _))
  · exact hwhole

/-- A number has a character: a digit, or a dot before one. -/
theorem lt_skipDecimal {offset : Nat} (h : isDigit c ∨ c = '.') :
    offset < (⟨offset, c :: rest⟩ : Cursor).skipDecimal.offset := by
  rcases h with hc | rfl
  · have hwhole := lt_skip (Nat.succ_pos (digitCount isDigit true rest)) offset c rest
    refine Nat.lt_of_lt_of_le hwhole ?_
    have hdigits : (⟨offset, c :: rest⟩ : Cursor).skipDigits isDigit =
        (⟨offset, c :: rest⟩ : Cursor).skip (digitCount isDigit true rest + 1) := by
      simp [skipDigits, digitCount, hc]
    refine Nat.le_trans ?_ (leads_skipExponent _).le
    rw [← hdigits]
    split
    · exact ((leads_skip 1 _).trans (leads_skipDigits _ _)).le
    · exact Nat.le_refl _
  · have hdigits : (⟨offset, '.' :: rest⟩ : Cursor).skipDigits isDigit = ⟨offset, '.' :: rest⟩ := by
      simp [skipDigits, digitCount, isDigit, Cursor.skip]
    refine Nat.lt_of_lt_of_le ?_ (leads_skipExponent _).le
    simp only [hdigits, List.head?_cons, beq_self_eq_true, if_true]
    exact Nat.lt_of_lt_of_le (lt_skip Nat.one_pos offset '.' rest) (leads_skipDigits _ _).le

end Cursor

/-! ## Quoted texts and names -/

open Cursor

theorem leads_stringEnd {quote : Char} (hquote : quote.utf8Size = 1) (offset : Nat)
    (cs : List Char) : Leads ⟨offset, cs⟩ (stringEnd quote offset cs).stop := by
  fun_induction stringEnd quote offset cs with
  | case1 offset => exact .refl _
  | case2 offset rest ih => exact Leads.trans ⟨['\\', '\r', '\n'], rfl, rfl⟩ ih
  | case3 offset c rest _ ih => exact Leads.trans ⟨['\\', c], rfl, by simp [Nat.add_assoc]; rfl⟩ ih
  | case4 offset c rest _ _ hc =>
    obtain rfl : c = quote := by simpa using hc
    exact leads_ascii offset hquote
  | case5 offset c rest => exact .refl _
  | case6 offset c rest _ _ _ _ ih => exact (leads_cons offset c rest).trans ih

theorem leads_attributeEnd (quote : Char) (offset : Nat) (cs : List Char) :
    Leads ⟨offset, cs⟩ (attributeEnd quote offset cs).stop := by
  fun_induction attributeEnd quote offset cs with
  | case1 offset => exact .refl _
  | case2 offset c rest => exact leads_cons offset c rest
  | case3 offset c rest _ ih => exact (leads_cons offset c rest).trans ih

theorem leads_templateEnd (offset : Nat) (cs : List Char) :
    Leads ⟨offset, cs⟩ (templateEnd offset cs).1 := by
  fun_induction templateEnd offset cs with
  | case1 offset => exact .refl _
  | case2 offset rest => exact ⟨['\x60'], rfl, rfl⟩
  | case3 offset rest => exact ⟨['$', '\x7b'], rfl, rfl⟩
  | case4 offset rest ih => exact Leads.trans ⟨['\\', '\r', '\n'], rfl, rfl⟩ ih
  | case5 offset c rest _ ih => exact Leads.trans ⟨['\\', c], rfl, by simp [Nat.add_assoc]; rfl⟩ ih
  | case6 offset c rest _ _ _ _ ih => exact (leads_cons offset c rest).trans ih

theorem leads_regularExpressionEnd (inClass : Bool) (offset : Nat) (cs : List Char) :
    Leads ⟨offset, cs⟩ (regularExpressionEnd inClass offset cs).stop := by
  fun_induction regularExpressionEnd inClass offset cs with
  | case1 inClass offset => exact .refl _
  | case2 inClass offset | case3 inClass offset c rest => exact ⟨['\\'], rfl, rfl⟩
  | case4 inClass offset c rest _ ih =>
    exact Leads.trans ⟨['\\', c], rfl, by simp [Nat.add_assoc]; rfl⟩ ih
  | case5 inClass offset c rest => exact .refl _
  | case6 inClass offset c rest _ _ hc =>
    obtain ⟨rfl, -⟩ : c = '/' ∧ inClass = false := by simpa using hc
    exact ⟨['/'], rfl, rfl⟩
  | case7 inClass offset c rest _ _ _ _ ih => exact (leads_cons offset c rest).trans ih

theorem leads_nameEndFrom (fuel : Nat) (name : NameEnd) :
    name.stop.Leads (nameEndFrom fuel name).stop := by
  fun_induction nameEndFrom fuel name with
  | case1 name | case2 fuel name => exact .refl _
  | case3 fuel name c rest _ _ ih => exact (leads_skip 1 name.stop).trans ih
  | case4 fuel name c rest _ _ _ extent good _ stop badEscapes ih =>
    exact (leads_skip _ name.stop).trans ih
  | case5 fuel name c rest => exact .refl _

theorem leads_nameEnd (here : Cursor) : here.Leads (nameEnd here).stop :=
  leads_nameEndFrom _ ⟨here, false, []⟩

end Untype
