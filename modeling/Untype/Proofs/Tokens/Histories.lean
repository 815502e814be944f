-- Scanners with a history: whatever was asked of a scanner, it stands in its
-- text, between characters, and to go on is to come closer to the end.
import Mathlib.Logic.Function.Iterate
import Untype.Proofs.Tokens.Reading

namespace Untype

open Untype.Text Cursor

/-! ## Requests -/

/-- What can be asked of a scanner. -/
inductive Request where
  | scan
  | scanJsx
  | rescanSlash
  | rescanTemplate
  | rescanGreater
  | rescanJsxName
  | rescanJsxValue
  | save
  /-- Come back to a saved state. They are counted from the last one. -/
  | restore (index : Nat)
  /-- Come back to the current state after other requests. -/
  | lookAhead (requests : List Request)

/-- A scanner and the states that were saved on its way, the last one first. -/
structure History where
  scanner : Scanner
  saved : List Snapshot

namespace History

variable {s : Scanner}

/-- Before the first request. -/
def ofText (text : String) : History := ⟨.ofText text, []⟩

/-- The scanner is brought elsewhere. -/
def move (h : History) (scanner : Scanner) : History := { h with scanner }

mutual

/-- The history after a request. A state that is saved while looking ahead stays saved, and to
come back to a state that was not saved changes nothing. -/
def after (h : History) : Request → History
  | .scan => h.move h.scanner.scan
  | .scanJsx => h.move h.scanner.scanJsx
  | .rescanSlash => h.move h.scanner.rescanSlash
  | .rescanTemplate => h.move h.scanner.rescanTemplate
  | .rescanGreater => h.move h.scanner.rescanGreater
  | .rescanJsxName => h.move h.scanner.rescanJsxName
  | .rescanJsxValue => h.move h.scanner.rescanJsxValue
  | .save => { h with saved := h.scanner.save :: h.saved }
  | .restore index =>
    match h.saved[index]? with
    | some saved => h.move (h.scanner.restore saved)
    | none => h
  | .lookAhead requests =>
    let ahead := h.afterAll requests
    ahead.move (ahead.scanner.restore h.scanner.save)

/-- The history after several requests. -/
def afterAll (h : History) : List Request → History
  | [] => h
  | request :: rest => (h.after request).afterAll rest

end

/-! ## Every state of a history fits -/

variable {text : String} {h : History}

/-- The scanner is in the text, and so it is after coming back to a saved state. -/
structure Fits (text : String) (h : History) : Prop where
  scanner : h.scanner.Fits text
  saved : ∀ saved ∈ h.saved, ∀ s : Scanner, (s.restore saved).Fits text

theorem restore_save_fits (h : s.Fits text) (other : Scanner) : (other.restore s.save).Fits text :=
  ⟨h.full, h.start, h.here, h.opens, h.ends, h.moves⟩

theorem Fits.ofText (text : String) : (ofText text).Fits text :=
  ⟨Scanner.Fits.ofText text, fun _ hsaved => absurd hsaved List.not_mem_nil⟩

theorem Fits.move (hfits : h.Fits text) (hs : s.Fits text) : (h.move s).Fits text :=
  ⟨hs, hfits.saved⟩

mutual

theorem Fits.after : ∀ {h : History} (request : Request), h.Fits text → (h.after request).Fits text
  | h, .scan, hfits => hfits.move hfits.scanner.scan
  | h, .scanJsx, hfits => hfits.move hfits.scanner.scanJsx
  | h, .rescanSlash, hfits => hfits.move hfits.scanner.rescanSlash
  | h, .rescanTemplate, hfits => hfits.move hfits.scanner.rescanTemplate
  | h, .rescanGreater, hfits => hfits.move hfits.scanner.rescanGreater
  | h, .rescanJsxName, hfits => hfits.move hfits.scanner.rescanJsxName
  | h, .rescanJsxValue, hfits => hfits.move hfits.scanner.rescanJsxValue
  | h, .save, hfits =>
    ⟨hfits.scanner, List.forall_mem_cons.2 ⟨restore_save_fits hfits.scanner, hfits.saved⟩⟩
  | h, .restore index, hfits => by
    rw [History.after]
    split
    · rename_i saved hsaved
      exact hfits.move (hfits.saved saved (List.mem_of_getElem? hsaved) h.scanner)
    · exact hfits
  | h, .lookAhead requests, hfits =>
    (Fits.afterAll requests hfits).move (restore_save_fits hfits.scanner _)

theorem Fits.afterAll : ∀ {h : History} (requests : List Request), h.Fits text →
    (h.afterAll requests).Fits text
  | _, [], hfits => hfits
  | _, request :: rest, hfits => Fits.afterAll rest (Fits.after request hfits)

end

end History

theorem Text.length_le_byteLength (cs : List Char) : cs.length ≤ byteLength cs := by
  induction cs with
  | nil => exact Nat.le_refl _
  | cons c cs ih =>
    have hpos := c.utf8Size_pos
    rw [List.length_cons, byteLength_cons]
    omega

namespace Scanner

variable {text : String} {s : Scanner}

/-! ## Progress -/

/-- The trivia and the token of the scanner are pieces of the text, cut between characters. -/
structure LiesIn (text : String) (s : Scanner) : Prop where
  full : Boundary text s.full.offset
  start : Boundary text s.start.offset
  here : Boundary text s.here.offset
  full_le : s.full.offset ≤ s.start.offset
  start_le : s.start.offset ≤ s.here.offset
  here_le : s.here.offset ≤ text.utf8ByteSize

theorem Fits.liesIn (h : s.Fits text) : s.LiesIn text := by
  refine ⟨h.full.boundary, (h.full.trans h.start).boundary, h.toHere.boundary, h.start.le,
    h.here.le, ?_⟩
  obtain ⟨front, hfront, hoffset⟩ := h.toHere
  rw [hoffset, ← byteLength_toList, show text.toList = front ++ s.here.rest from hfront]
  simp [Cursor.ofText]

/-- The next token begins where the last one ended. It is the end of the text, or not empty. -/
structure Advances (text : String) (s next : Scanner) : Prop where
  full : next.full.offset = s.here.offset
  ends : next.kind = .endOfFile → next.here.offset = text.utf8ByteSize
  moves : next.kind ≠ .endOfFile → next.start.offset < next.here.offset

theorem scan_moves (h : s.scan.kind ≠ .endOfFile) : s.scan.start.offset < s.scan.here.offset :=
  (readToken_fits _ _).moves h

theorem scan_shortens (h : s.scan.kind ≠ .endOfFile) :
    s.scan.here.rest.length < s.here.rest.length := by
  have hword : s.scan.start.Leads s.scan.here := (readToken_fits _ _).stop
  exact Nat.lt_of_lt_of_le (hword.length_lt (scan_moves h)) s.leads_scan.length_le

theorem Fits.scan_advances (h : s.Fits text) : Advances text s s.scan :=
  ⟨rfl, fun hend => h.scan.toHere.at_end (h.scan.ends hend), fun hend => scan_moves hend⟩

theorem kind_scanJsx (s : Scanner) : s.scanJsx.kind ≠ .unknown := by
  unfold Scanner.scanJsx
  dsimp only
  split <;> exact nofun

theorem Fits.scanJsx_advances (h : s.Fits text) : Advances text s s.scanJsx :=
  ⟨by rw [scanJsx_full], fun hend => h.scanJsx.toHere.at_end (h.scanJsx.ends hend),
    fun hend => h.scanJsx.moves hend (kind_scanJsx s)⟩

/-! ## All tokens -/

/-- The tokens are found one after another, the end of the text as the last of them, and they are
what was left of the text. -/
structure Exhausts (s : Scanner) (tokens : List Scanner) : Prop where
  count : ∃ n ≤ s.here.rest.length,
    tokens = (List.range (n + 1)).map (fun i => Scanner.scan^[i + 1] s) ∧
    (∀ i < n, (Scanner.scan^[i + 1] s).kind ≠ .endOfFile) ∧
    (Scanner.scan^[n + 1] s).kind = .endOfFile
  text : tokens.flatMap (fun token => (token.trivia ++ token.text).toList) = s.here.rest

theorem scan_takes (s : Scanner) :
    s.here.rest = (s.scan.trivia ++ s.scan.text).toList ++ s.scan.here.rest := by
  obtain ⟨trivia, htrivia, hstart⟩ := s.leads_scan
  obtain ⟨word, hword, hoffset⟩ := (readToken_fits
    (triviaEnd .between {} s.here.offset s.here.rest).flags s.scan.start).stop
  have htriviaText : s.scan.trivia = .ofList trivia := textTo_of_append htrivia hstart
  have hwordText : s.scan.text = .ofList word := textTo_of_append hword hoffset
  rw [htriviaText, hwordText, String.toList_append, String.toList_ofList, String.toList_ofList,
    List.append_assoc]
  have hword : s.scan.start.rest = word ++ s.scan.here.rest := hword
  exact hword ▸ htrivia

theorem scanAllFrom_exhausts (fuel : Nat) (s : Scanner) (hfuel : s.here.rest.length < fuel) :
    s.Exhausts (scanAllFrom fuel s) := by
  induction fuel generalizing s with
  | zero => cases hfuel
  | succ fuel ih =>
    rw [scanAllFrom]
    split
    · rename_i hend
      have hend : s.scan.kind = .endOfFile := by simpa using hend
      refine ⟨⟨0, Nat.zero_le _, rfl, nofun, hend⟩, ?_⟩
      have hrest : s.scan.here.rest = [] := (readToken_fits _ _).ends hend
      rw [scan_takes s, hrest]
      simp
    · rename_i hgoes
      have hgoes : s.scan.kind ≠ .endOfFile := by simpa using hgoes
      have hshorter := scan_shortens hgoes
      obtain ⟨⟨n, hn, htokens, hbefore, hlast⟩, htext⟩ := ih s.scan (by omega)
      refine ⟨⟨n + 1, by omega, ?_, ?_, hlast⟩, ?_⟩
      · rw [htokens, List.range_succ_eq_map (n := n + 1), List.map_cons, List.map_map]
        rfl
      · intro i hi
        cases i with
        | zero => exact hgoes
        | succ i => exact hbefore i (by omega)
      · rw [List.flatMap_cons, htext, ← scan_takes]

end Scanner

/-- The scanner is in the text and comes to its end. -/
structure Scanner.Proceeds (text : String) (s : Scanner) : Prop where
  lies : s.LiesIn text
  scan : s.Advances text s.scan
  scanJsx : s.Advances text s.scanJsx
  /-- The end is found after no more tokens than there are bytes left. -/
  ends : ∃ n ≤ text.utf8ByteSize - s.here.offset,
    s.scanAll = (List.range (n + 1)).map (fun i => Scanner.scan^[i + 1] s) ∧
    (∀ i < n, (Scanner.scan^[i + 1] s).kind ≠ .endOfFile) ∧
    (Scanner.scan^[n + 1] s).kind = .endOfFile
  /-- The tokens up to the end, with their trivia, are what is left of the text. -/
  tiles : s.scanAll.flatMap (fun token => (token.trivia ++ token.text).toList) =
    (slice text s.here.offset text.utf8ByteSize).toList

theorem Scanner.Fits.proceeds {text : String} {s : Scanner} (h : s.Fits text) :
    s.Proceeds text := by
  obtain ⟨front, hfront, hoffset⟩ := h.toHere
  have hfront : text.toList = front ++ s.here.rest := hfront
  have hall : text.toList = front ++ s.here.rest ++ [] := by rw [List.append_nil, hfront]
  have hoffset : byteLength front = s.here.offset := by simp [hoffset, Cursor.ofText]
  have hsize : text.utf8ByteSize = s.here.offset + byteLength s.here.rest := by
    rw [← byteLength_toList, hfront, byteLength_append, hoffset]
  obtain ⟨⟨n, hn, htokens⟩, htext⟩ : s.Exhausts s.scanAll :=
    scanAllFrom_exhausts _ s (Nat.lt_succ_self _)
  refine ⟨h.liesIn, h.scan_advances, h.scanJsx_advances, ⟨n, ?_, htokens⟩, ?_⟩
  · have hbytes := length_le_byteLength s.here.rest
    omega
  · rw [htext, hsize, ← hoffset, ← byteLength_append, slice_eq_ofList hall, String.toList_ofList]

/-- Whatever was asked of a scanner, it stands in its text: trivia, token and what follows lie side
by side, cut between characters. Each of the two ways to go on begins where the token ended and
finds the end of the text or a token that is not empty, so the end is found, and the tokens up to it
are what was left of the text. -/
theorem History.afterAll_proceeds (text : String) (requests : List Request) :
    ((ofText text).afterAll requests).scanner.Proceeds text :=
  (Fits.afterAll requests (Fits.ofText text)).scanner.proceeds

end Untype
