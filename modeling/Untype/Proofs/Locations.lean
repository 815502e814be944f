-- Lines and columns: the lines of a text start just behind its line breaks,
-- and the place of an offset is on the last line that starts at or before it.
import Untype.Proofs.Places
import Untype.Text.Lines

namespace Untype.Text

variable {text : String} {offset pos : Nat} {c : Char} {cs : List Char}
variable {start later line : Nat} {other : Location}

/-! ## Where lines start -/

/-- A line break ends at `pos`: LF, with or without a CR in front of it, or a CR without LF. -/
def EndsLine (offset : Nat) (cs : List Char) (pos : Nat) : Prop :=
  ∃ front back, cs = front ++ back ∧ pos = offset + byteLength front ∧
    (front.getLast? = some '\n' ∨ front.getLast? = some '\r' ∧ back.head? ≠ some '\n')

theorem endsLine_cons : EndsLine offset (c :: cs) pos ↔
    pos = offset + c.utf8Size ∧ (c = '\n' ∨ c = '\r' ∧ cs.head? ≠ some '\n') ∨
      EndsLine (offset + c.utf8Size) cs pos := by
  constructor
  · rintro ⟨front, back, hsplit, rfl, hlast⟩
    match front with
    | [] => simp at hlast
    | [d] =>
      obtain ⟨rfl, rfl⟩ : c = d ∧ cs = back := by simpa using hsplit
      exact .inl ⟨by simp, by simpa using hlast⟩
    | d :: e :: front =>
      obtain ⟨rfl, rfl⟩ : c = d ∧ cs = e :: front ++ back := by simpa using hsplit
      exact .inr ⟨e :: front, back, rfl, by simp only [byteLength_cons]; omega, hlast⟩
  · rintro (⟨rfl, hc⟩ | ⟨front, back, rfl, rfl, hlast⟩)
    · exact ⟨[c], cs, rfl, by simp, by simpa using hc⟩
    · refine ⟨c :: front, back, rfl, by simp only [byteLength_cons]; omega, ?_⟩
      cases front with
      | nil => simp at hlast
      | cons d front => exact hlast

/-- The lines behind the first one start where a line break ends. -/
theorem mem_lineStartsFrom : pos ∈ lineStartsFrom offset cs ↔ EndsLine offset cs pos := by
  fun_induction lineStartsFrom offset cs with
  | case1 => simp [EndsLine]
  | case2 offset rest ih =>
    have hsize : '\r'.utf8Size + '\n'.utf8Size = 2 := rfl
    simp [endsLine_cons, ih, Nat.add_assoc, hsize]
  | case3 offset c rest hpair hc ih =>
    have hbreak : c = '\n' ∨ c = '\r' ∧ rest.head? ≠ some '\n' := by
      rcases (by simpa using hc : c = '\n' ∨ c = '\r') with rfl | rfl
      · exact .inl rfl
      · refine .inr ⟨rfl, fun hhead => ?_⟩
        obtain ⟨rest', rfl⟩ := List.head?_eq_some_iff.1 hhead
        exact hpair rest' rfl rfl
    have hsize : c.utf8Size = 1 := by
      rcases (by simpa using hc : c = '\n' ∨ c = '\r') with rfl | rfl <;> rfl
    simp only [List.mem_cons, endsLine_cons, ih, hsize, hbreak, and_true]
  | case4 offset c rest hpair hc ih =>
    rw [endsLine_cons, ih]
    simp_all

theorem EndsLine.lt (h : EndsLine offset cs pos) : offset < pos := by
  obtain ⟨front, back, -, rfl, hlast⟩ := h
  cases front with
  | nil => simp at hlast
  | cons c front =>
    have := c.utf8Size_pos
    rw [byteLength_cons]
    omega

theorem lineStartsFrom_pairwise (offset : Nat) (cs : List Char) :
    (lineStartsFrom offset cs).Pairwise (· < ·) := by
  fun_induction lineStartsFrom offset cs with
  | case1 => exact .nil
  | case2 _ _ ih | case3 _ _ _ _ _ ih => exact .cons (fun _ h => (mem_lineStartsFrom.1 h).lt) ih
  | case4 _ _ _ _ _ ih => exact ih

/-! ## Lines and columns -/

/-- In the order in which a text is read. -/
def Location.Before (place later : Location) : Prop :=
  place.line < later.line ∨ place.line = later.line ∧ place.column < later.column

namespace LineMap

variable {map : LineMap}

/-- Lines start at increasing offsets, the first one at the start of the text. -/
structure Ordered (map : LineMap) : Prop where
  head : map.start? 0 = some 0
  increasing : map.starts.Pairwise (· < ·)

theorem ordered_ofText (text : String) : (ofText text).Ordered :=
  ⟨rfl, .cons (fun _ h => (mem_lineStartsFrom.1 h).lt) (lineStartsFrom_pairwise 0 text.toList)⟩

theorem Ordered.lt (h : map.Ordered) {i j : Nat} (hij : i < j)
    (hi : map.start? i = some start) (hj : map.start? j = some later) : start < later := by
  obtain ⟨hi', rfl⟩ := List.getElem?_eq_some_iff.1 hi
  obtain ⟨hj', rfl⟩ := List.getElem?_eq_some_iff.1 hj
  exact List.pairwise_iff_getElem.1 h.increasing i j hi' hj' hij

/-- What the search finds: the line that starts at the offset, or the first one behind it, which is
not the first line then. -/
theorem Ordered.search_spec (h : map.Ordered) (pos : Nat) :
    (∃ line, map.search pos = .ok line ∧ map.start? line = some pos) ∨
      ∃ line start, map.search pos = .error (line + 1) ∧ map.start? line = some start ∧
        start < pos ∧ ∀ next, map.start? (line + 1) = some next → pos < next := by
  by_cases hfound : map.start? (map.starts.findIdx (pos ≤ ·)) = some pos
  · exact .inl ⟨_, if_pos hfound, hfound⟩
  · refine .inr ?_
    have hsearch : map.search pos = .error (map.starts.findIdx (pos ≤ ·)) := if_neg hfound
    have hlength : map.starts.findIdx (pos ≤ ·) ≤ map.starts.length := List.findIdx_le_length
    have hlater : ∀ next, map.start? (map.starts.findIdx (pos ≤ ·)) = some next → pos < next := by
      intro next hnext
      obtain ⟨hlt, rfl⟩ := List.getElem?_eq_some_iff.1 hnext
      have hle : pos ≤ map.starts[map.starts.findIdx (pos ≤ ·)] := by
        simpa using List.findIdx_getElem (w := hlt)
      refine Nat.lt_of_le_of_ne hle fun heq => hfound ?_
      rwa [← heq] at hnext
    cases hindex : map.starts.findIdx (pos ≤ ·) with
    | zero =>
      rw [hindex] at hlater
      exact absurd (hlater 0 h.head) (Nat.not_lt_zero pos)
    | succ line =>
      rw [hindex] at hsearch hlater hlength
      have hbefore := List.not_of_lt_findIdx (by omega : line < map.starts.findIdx (pos ≤ ·))
      exact ⟨line, _, hsearch, List.getElem?_eq_getElem hlength, by simpa using hbefore, hlater⟩

theorem Ordered.lineOf_spec (h : map.Ordered) (pos : Nat) :
    ∃ start, map.start? (map.lineOf pos) = some start ∧ start ≤ pos ∧
      ∀ next, map.start? (map.lineOf pos + 1) = some next → pos < next := by
  unfold lineOf
  obtain ⟨line, hsearch, hline⟩ | ⟨line, start, hsearch, hline, hlt, hnext⟩ := h.search_spec pos
  · rw [hsearch]
    exact ⟨pos, hline, Nat.le_refl pos, fun next hnext => h.lt (Nat.lt_succ_self line) hline hnext⟩
  · rw [hsearch]
    exact ⟨start, hline, Nat.le_of_lt hlt, hnext⟩

/-- The place at which a reader finds the offset: on the last line that starts at or before it,
behind the characters between. -/
def Places (map : LineMap) (text : String) (pos : Nat) (place : Location) : Prop :=
  ∃ line front middle back, text.toList = front ++ middle ++ back ∧
    map.start? line = some (byteLength front) ∧ pos = byteLength (front ++ middle) ∧
    (∀ next, map.start? (line + 1) = some next → pos < next) ∧
    place = ⟨line + 1, middle.length + 1⟩

theorem boundary_start (h : (ofText text).start? line = some start) :
    Boundary text start := by
  rcases List.mem_cons.1 (List.mem_of_getElem? h) with rfl | hmem
  · exact boundary_iff.2 ⟨[], text.toList, rfl, rfl⟩
  · obtain ⟨front, back, htext, rfl, -⟩ := mem_lineStartsFrom.1 hmem
    exact boundary_iff.2 ⟨front, back, htext, (Nat.zero_add _).symm⟩

theorem places_location (h : Boundary text pos) :
    (ofText text).Places text pos ((ofText text).location text pos) := by
  obtain ⟨start, hstart, hle, hnext⟩ := (ordered_ofText text).lineOf_spec pos
  obtain ⟨front, rest, htext, rfl⟩ := boundary_iff.1 (boundary_start hstart)
  obtain ⟨front', back, htext', rfl⟩ := boundary_iff.1 h
  obtain ⟨middle, rfl, rfl⟩ := front_of_le (htext.symm.trans htext') hle
  refine ⟨_, front, middle, back, htext', hstart, rfl, hnext, ?_⟩
  have hsize : byteLength (front ++ middle) ≤ text.utf8ByteSize := by
    rw [← byteLength_toList, htext', byteLength_append _ back]
    omega
  simp only [location, hstart, Option.getD_some, Nat.min_eq_left hsize, slice?_eq_ofList htext',
    String.length_ofList]

theorem Ordered.le_of_places (h : map.Ordered)
    (hother : map.Places text later other) (hstart : map.start? line = some start)
    (hle : start ≤ later) : line + 1 ≤ other.line := by
  obtain ⟨line', front, middle, back, -, hstart', -, hnext, rfl⟩ := hother
  refine Nat.succ_le_succ (Nat.le_of_not_lt fun hline => ?_)
  rcases Nat.lt_or_eq_of_le (Nat.succ_le_of_lt hline) with hlt | rfl
  · obtain ⟨hlength, -⟩ := List.getElem?_eq_some_iff.1 hstart
    have hfound := List.getElem?_eq_getElem (Nat.lt_trans hlt hlength)
    have := h.lt hlt hfound hstart
    have := hnext _ hfound
    omega
  · have := hnext start hstart
    omega

/-- Places come in the order of the offsets. -/
theorem before_of_lt {place : Location} (h : map.Ordered)
    (hplace : map.Places text pos place) (hother : map.Places text later other)
    (hlt : pos < later) :
    place.Before other := by
  obtain ⟨line, front, middle, back, htext, hstart, rfl, -, rfl⟩ := hplace
  have hle : line + 1 ≤ other.line := h.le_of_places hother hstart (by simp at hlt; omega)
  rcases Nat.lt_or_eq_of_le hle with hline | hline
  · exact .inl hline
  · obtain ⟨line', front', middle', back', htext', hstart', rfl, -, rfl⟩ := hother
    obtain rfl : line = line' := Nat.succ.inj hline
    have hsize : byteLength front = byteLength front' := Option.some.inj (hstart.symm.trans hstart')
    obtain ⟨between, hboth, -⟩ := front_of_le (htext.symm.trans htext') (Nat.le_of_lt hlt)
    obtain rfl : front = front' := by
      have hcut := takeBytes_append front' middle'
      rwa [hboth, List.append_assoc, ← hsize, takeBytes_append] at hcut
    obtain rfl : middle' = middle ++ between := List.append_cancel_left (hboth.trans (by simp))
    refine .inr ⟨rfl, ?_⟩
    cases between with
    | nil => simp at hlt
    | cons c between => simp

/-- The lines of a text start at increasing offsets: at 0, and just behind each line break. A search
for an offset at which no line starts does not end at the first line. Each offset between two
characters has the place at which a reader finds it, and no two of them have the same one: places
come in the order of the offsets. -/
theorem ofText_locates (text : String) :
    let map := ofText text
    map.starts.head? = some 0 ∧ map.starts.Pairwise (· < ·) ∧
      (∀ pos, pos ∈ map.starts.tail ↔ EndsLine 0 text.toList pos) ∧
      (∀ pos next, map.search pos = .error next → 0 < next) ∧
      (∀ pos, Boundary text pos → map.Places text pos (map.location text pos)) ∧
      (∀ pos later, Boundary text pos → Boundary text later → pos < later →
        (map.location text pos).Before (map.location text later)) ∧
      ∀ pos other, Boundary text pos → Boundary text other →
        map.location text pos = map.location text other → pos = other := by
  intro map
  have hordered : map.Ordered := ordered_ofText text
  have hbefore : ∀ pos later, Boundary text pos → Boundary text later → pos < later →
      (map.location text pos).Before (map.location text later) := fun pos later hpos hlater =>
    before_of_lt hordered (places_location hpos) (places_location hlater)
  have hnot : ∀ place : Location, ¬ place.Before place := by simp [Location.Before]
  refine ⟨rfl, hordered.increasing, fun pos => mem_lineStartsFrom, ?_, fun pos => places_location,
    hbefore, ?_⟩
  · intro pos next hsearch
    obtain ⟨line, hfound, -⟩ | ⟨line, start, hfound, -⟩ := hordered.search_spec pos
    · cases hfound.symm.trans hsearch
    · cases hfound.symm.trans hsearch
      exact Nat.succ_pos line
  · intro pos other hpos hother hsame
    rcases Nat.lt_trichotomy pos other with hlt | rfl | hlt
    · exact absurd (hsame ▸ hbefore pos other hpos hother hlt) (hnot _)
    · rfl
    · exact absurd (hsame ▸ hbefore other pos hother hpos hlt) (hnot _)

/-- Between the characters of a pair that ends a line, an offset is on this line still. -/
theorem ofText_locates_pair :
    (ofText "a\r\nb").Places "a\r\nb" 2 ⟨1, 3⟩ ∧ (⟨1, 3⟩ : Location).Before ⟨2, 1⟩ := by
  have hinside : Boundary "a\r\nb" 2 := boundary_iff.2 ⟨['a', '\r'], ['\n', 'b'], by decide, rfl⟩
  have hbehind : Boundary "a\r\nb" 3 := boundary_iff.2 ⟨['a', '\r', '\n'], ['b'], by decide, rfl⟩
  obtain ⟨-, -, -, -, hplaces, hbefore, -⟩ := ofText_locates "a\r\nb"
  exact ⟨hplaces 2 hinside, hbefore 2 3 hinside hbehind (by decide)⟩

end LineMap

end Untype.Text
