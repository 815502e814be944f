-- What is tried in vain leaves no trace. A parser that starts with taking the
-- current token never looks back at what was found before it, so the number
-- of findings is enough to undo whatever it read.
import Untype.Proofs.Anatomy.Ends

namespace Untype.Grammar

open Untype.Scanner Untype.Grammar.Parser

variable {text : Source}
variable {β : Type}

/-! ## States that follow one another -/

/-- A state that a parser comes to from another one. What was passed before stays passed, and no
failure is forgotten. -/
structure State.Follows (text : Source) (s t : State) : Prop where
  reached : text.Reaches t.scanner
  passed : ∀ b, text.Reaches b → Beyond b s.scanner → Beyond b t.scanner
  memory : s.failedArrows <:+ t.failedArrows

namespace State.Follows

variable {s t u : State}

theorem trans (h : s.Follows text t) (h' : t.Follows text u) : s.Follows text u :=
  ⟨h'.reached, fun b hb hs => h'.passed b hb (h.passed b hb hs), h.memory.trans h'.memory⟩

variable (h : text.Reaches s.scanner)

include h

theorem refl : s.Follows text s := ⟨h, fun _ _ => id, List.suffix_rfl⟩

theorem scan : s.Follows text { s with scanner := s.scanner.scan } :=
  ⟨h.scan, fun _ _ hs => hs.trans (beyond_scan _) h.reached.fits, List.suffix_rfl⟩

theorem scanJsx : s.Follows text { s with scanner := s.scanner.scanJsx } :=
  ⟨h.scanJsx, fun _ _ hs => hs.trans (beyond_scanJsx _) h.reached.fits, List.suffix_rfl⟩

theorem reread {advance : Scanner → Scanner} (hadvance : Rereads advance) :
    s.Follows text { s with scanner := advance s.scanner } :=
  ⟨h.reread hadvance, fun _ hb hs => hs.reread hb.reached.orderly h.reached.orderly hadvance,
    List.suffix_rfl⟩

theorem back {learned : List Nat} (hlearned : s.failedArrows <:+ learned) :
    s.Follows text ⟨s.scanner, learned⟩ :=
  ⟨h, fun _ _ => id, hlearned⟩

end State.Follows

/-! ## Runs -/

variable {α : Type} {r : Rules} {g : Level} {rank j : Nat} {pre : Scanner → Prop} {p : Parser α}
  {took : α → Prop} {post : α → Nat → Scanner → Prop} {context : Context} {state : State}
variable {reply : Reply α} {took' : α → Prop} {rank' : Nat}

/-- Where the answer leaves a parser. One of rank 0 stands at its first token or has passed it, and
has passed it after an answer that `took` something. -/
def Reply.Traces (text : Source) (rank : Nat) (took : α → Prop) (state : State) : Reply α → Prop
  | .done value state' => state.Follows text state' ∧ (rank = 0 →
      (took value → Beyond state.scanner state'.scanner) ∧
        (state'.scanner = state.scanner ∨ Beyond state.scanner state'.scanner))
  | .failed _ stop => state.Follows text stop ∧ (rank = 0 →
      stop.scanner = state.scanner ∨ Beyond state.scanner stop.scanner)
  | .stalled => True

/-- No production takes the end of the text, and each goes on in the text. -/
structure Rules.Follow (text : Source) (r : Rules) : Prop where
  fit : r.Fit text
  traces : ∀ production context state, text.Reaches state.scanner →
    (r production context state).Traces text production.rank Always state

theorem Reply.Traces.weaken
    (h : reply.Traces text rank took' state) (htook : ∀ value, took value → took' value) :
    reply.Traces text rank took state := by
  cases reply with
  | done value state' =>
    exact ⟨h.1, fun hrank => ⟨fun hvalue => (h.2 hrank).1 (htook value hvalue), (h.2 hrank).2⟩⟩
  | failed failure stop => exact h
  | stalled => trivial

theorem Reply.Traces.free
    (h : reply.Traces text rank' took' state) (hrank : 0 < rank) :
    reply.Traces text rank took state := by
  cases reply with
  | done value state' | failed failure stop => exact ⟨h.1, fun h => absurd h (Nat.ne_of_gt hrank)⟩
  | stalled => trivial

theorem Reply.Traces.after {state' : State}
    (h : reply.Traces text rank' took' state') (hreached : text.Reaches state.scanner)
    (hfollows : state.Follows text state')
    (hbeyond : rank = 0 → Beyond state.scanner state'.scanner) :
    reply.Traces text rank took state := by
  cases reply with
  | done value stop =>
    exact ⟨hfollows.trans h.1, fun hrank =>
      have hpassed := h.1.passed _ hreached (hbeyond hrank)
      ⟨fun _ => hpassed, .inr hpassed⟩⟩
  | failed failure stop =>
    exact ⟨hfollows.trans h.1, fun hrank => .inr (h.1.passed _ hreached (hbeyond hrank))⟩
  | stalled => trivial

/-- One parser after the other. -/
theorem traces_bind {took : β → Prop} {next : α → Parser β} (rank' : Nat)
    (hreached : text.Reaches state.scanner) (h : (p context state).Traces text rank took' state)
    (htaken : ∀ value state', p context state = .done value state' → text.Reaches state'.scanner →
      took' value → (next value context state').Traces text rank' Perhaps state')
    (hother : ∀ value state', p context state = .done value state' → text.Reaches state'.scanner →
      ¬ took' value → (next value context state').Traces text rank took state') :
    ((p >>= next) context state).Traces text rank took state := by
  simp only [Bind.bind, andThen]
  cases hreply : p context state with
  | done value state' =>
    rw [hreply] at h
    obtain ⟨hfollows, hleaves⟩ := h
    dsimp only
    by_cases hvalue : took' value
    · exact (htaken value state' hreply hfollows.reached hvalue).after hreached hfollows
        fun hrank => (hleaves hrank).1 hvalue
    · have hlast := hother value state' hreply hfollows.reached hvalue
      by_cases hrank : rank = 0
      · rcases (hleaves hrank).2 with hsame | hbeyond
        · revert hlast
          cases next value context state' with
          | done value' stop | failed failure stop =>
            rintro ⟨hstop, hlast⟩
            exact ⟨hfollows.trans hstop, hsame ▸ hlast⟩
          | stalled => exact id
        · exact hlast.after hreached hfollows fun _ => hbeyond
      · exact hlast.after hreached hfollows fun h => absurd h hrank
  | failed failure stop =>
    rw [hreply] at h
    exact h
  | stalled => trivial

theorem traces_attempt (hreached : text.Reaches state.scanner)
    (h : (p context state).Traces text 0 Always state) :
    (Parser.attempt p context state).Traces text rank (fun found => found.isSome) state := by
  unfold Parser.attempt
  cases hreply : p context state with
  | done value state' =>
    rw [hreply] at h
    have hbeyond := (h.2 rfl).1 trivial
    exact ⟨h.1, fun _ => ⟨fun _ => hbeyond, .inr hbeyond⟩⟩
  | failed failure stop =>
    rw [hreply] at h
    exact ⟨.back hreached h.1.memory, fun _ => ⟨by simp, .inl rfl⟩⟩
  | stalled => trivial

theorem traces_attemptArrow (hreached : text.Reaches state.scanner) (offset : Nat)
    (h : (p context state).Traces text 0 Always state) :
    (attemptArrow offset p context state).Traces text rank (fun found => found.isSome)
      state := by
  rw [attemptArrow_eq]
  split
  · exact ⟨.refl hreached, fun _ => ⟨by simp, .inl rfl⟩⟩
  · cases hreply : p context state with
    | done value state' =>
      rw [hreply] at h
      have hbeyond := (h.2 rfl).1 trivial
      dsimp only
      split
      · trivial
      · exact ⟨h.1, fun _ => ⟨fun _ => hbeyond, .inr hbeyond⟩⟩
    | failed failure stop =>
      rw [hreply] at h
      exact ⟨.back hreached (h.1.memory.trans (List.suffix_cons _ _)), fun _ => ⟨by simp, .inl rfl⟩⟩
    | stalled => trivial

/-- A loop passes what its first turn passes. -/
theorem traces_iterate (inv : α → State → Prop) {turn : α → Parser (Turn α β)}
    (hturn : ∀ value state, inv value state → text.Reaches state.scanner →
      (turn value context state).Traces text rank Turn.Advances state ∧
        ∀ value' state', turn value context state = .done (.again value') state' →
          inv value' state') :
    ∀ fuel value state, inv value state → text.Reaches state.scanner →
      (iterate turn fuel value context state).Traces text rank Perhaps state := by
  intro fuel
  induction fuel with
  | zero => exact fun _ _ _ _ => trivial
  | succ fuel ih =>
    intro value state hvalue hreached
    obtain ⟨honce, hagain⟩ := hturn value state hvalue hreached
    refine traces_bind rank hreached honce (fun result state' hdone hstop hresult => ?_)
      fun result state' hdone hstop hresult => ?_
    · cases result with
      | again value' => exact ih value' state' (hagain value' state' hdone) hstop
      | finish result => exact hresult.elim
    · cases result with
      | again value' => exact absurd trivial hresult
      | finish result => exact ⟨.refl hstop, fun _ => ⟨False.elim, .inl rfl⟩⟩

/-- Every run of a parser goes on in the text, and leaves its first token as its rank says. -/
theorem Parser.Made.traces (h : Made text r g j pre p took post) (hr : r.Follow text)
    (context : Context) (state : State) (hs : Starts text g j pre context state) :
    (p context state).Traces text g.rank took state := by
  induction h generalizing context state with
  | answer htook _ => exact ⟨.refl hs.reached, fun _ => ⟨fun h => absurd h htook, .inl rfl⟩⟩
  | look _ => exact ⟨.refl hs.reached, fun _ => ⟨False.elim, .inl rfl⟩⟩
  | chain hfirst _ _ ih ihtaken ihother =>
    have hmid := hfirst.ends hr.fit context state hs
    refine traces_bind topRank hs.reached (ih context state hs)
      (fun value state' hdone hstop hvalue => ?_) fun value state' hdone hstop hvalue => ?_
    · exact ihtaken value _ hvalue context state' (hs.next hstop (hmid value state' hdone).2)
    · exact ihother value _ hvalue context state' (hs.next hstop (hmid value state' hdone).2)
  | ground _ _ ih => exact ih context hs.noIn context state hs
  | fail => exact ⟨.refl hs.reached, fun _ => .inl rfl⟩
  | take _ _ | takeAs _ _ =>
    exact ⟨.scan hs.reached, fun _ => ⟨fun _ => beyond_scan _, .inr (beyond_scan _)⟩⟩
  | takeJsx _ _ =>
    exact ⟨.scanJsx hs.reached, fun _ => ⟨fun _ => beyond_scanJsx _, .inr (beyond_scanJsx _)⟩⟩
  | reread hrank hadvance _ =>
    exact ⟨.reread hs.reached hadvance, fun h => absurd h (Nat.ne_of_gt hrank)⟩
  | within hchange _ ih => exact ih _ state (hs.within hchange)
  | nested _ ih =>
    unfold Parser.nested
    split
    · exact ⟨.refl hs.reached, fun _ => .inl rfl⟩
    · rename_i hroom
      exact ih (hs.depth ▸ Nat.lt_of_not_le hroom) _ state hs.deeper
  | attempt _ _ _ ih =>
    exact traces_attempt hs.reached (ih context state hs.still)
  | attemptArrow _ _ _ ih =>
    exact traces_attemptArrow hs.reached _ (ih context state hs.still)
  | loop inv hfirst hturn ih =>
    refine traces_iterate (fun value state => inv value state.offset state.scanner)
      (fun value state hvalue hreached => ⟨?_, ?_⟩) context.budget _ state
      (hs.offset ▸ hfirst _ hs.known) hs.reached
    · exact ih value _ context state (hs.next hreached hvalue)
    · intro value' state' hdone
      exact ((hturn value _).ends hr.fit context state (hs.next hreached hvalue) _ state' hdone).2
  | rule hrank _ =>
    exact (hr.traces _ context state hs.reached).free (Nat.lt_of_le_of_lt (Nat.zero_le _) hrank)
  | weaken _ hpre' htook _ ih =>
    exact (ih context state (hs.weaken hpre')).weaken htook
  | given hknown _ ih => exact ih (hknown _ hs.known) context state hs

theorem rules_follow (text : Source) (fuel : Nat) : (rules fuel).Follow text := by
  induction fuel with
  | zero => exact ⟨rules_fit text 0, fun _ _ _ _ => trivial⟩
  | succ fuel ih =>
    refine ⟨rules_fit text _, fun production context state hreached => ?_⟩
    exact (rules_bring fuel production).traces ih context state ⟨rfl, rfl, hreached, rfl, trivial⟩

/-! ## Coming back -/

/-- If the parser fails, coming back to the state before it by the number of findings gives the
scanner as it was, so that trying it changes nothing but what is remembered of arrow functions. -/
def Parser.Restores (p : Parser α) (context : Context) (state : State) : Prop :=
  ∀ failure stop, p context state = .failed failure stop →
    stop.scanner.restore state.scanner.save = state.scanner ∧
      state.failedArrows <:+ stop.failedArrows ∧
      Parser.attempt p context state = .done none { state with failedArrows := stop.failedArrows }

theorem Parser.Made.restores {r : Rules} {p : Parser α} {context : Context} {state : State}
    (h : Made text r ⟨0, context.depth, context.disallowIn⟩ state.offset
      (fun _ => True) p Always post)
    (hr : r.Follow text) (hreached : text.Reaches state.scanner) : p.Restores context state := by
  intro failure stop hfailed
  have htraces := h.traces hr context state ⟨rfl, rfl, hreached, rfl, trivial⟩
  rw [hfailed] at htraces
  obtain ⟨hfollows, hleaves⟩ := htraces
  refine ⟨?_, hfollows.memory, attempt_done.2 (.inr ⟨rfl, failure, stop, hfailed, rfl⟩)⟩
  rcases hleaves rfl with hsame | hbeyond
  · exact hsame ▸ restore_save.2 List.prefix_rfl
  · exact restore_save.2 hbeyond.findings

end Untype.Grammar

namespace Untype

open Untype.Scanner Untype.Grammar Untype.Grammar.Parser

/-! ## Looking ahead -/

/-- To look ahead is to go on to further tokens, and maybe to look ahead from there. -/
inductive Request.Peeks : Request → Prop where
  | scan : Peeks .scan
  | lookAhead {requests : List Request} : (∀ request ∈ requests, Peeks request) →
    Peeks (.lookAhead requests)

namespace History

variable {text : String} {h : History}
variable {requests : List Request}

/-- The scanner after requests that only look ahead. -/
def Stays (text : String) (h next : History) : Prop :=
  Reached text next.scanner ∧ (next.scanner = h.scanner ∨ Beyond h.scanner next.scanner)

theorem stays_afterAll (hrequests : ∀ request ∈ requests, ∀ h : History, Reached text h.scanner →
      h.Stays text (h.after request)) (hreached : Reached text h.scanner) :
    h.Stays text (h.afterAll requests) := by
  induction requests generalizing h with
  | nil => exact ⟨hreached, .inl rfl⟩
  | cons request rest ih =>
    obtain ⟨hnext, hfirst⟩ := hrequests request List.mem_cons_self h hreached
    obtain ⟨hlast, hrest⟩ :=
      ih (fun other hother => hrequests other (List.mem_cons_of_mem _ hother)) hnext
    rw [afterAll]
    refine ⟨hlast, ?_⟩
    rcases hfirst with hsame | hbeyond
    · exact hsame ▸ hrest
    · rcases hrest with hsame | hbeyond'
      · exact .inr (hsame ▸ hbeyond)
      · exact .inr (hbeyond.trans hbeyond' hnext.fits)

theorem lookAhead_scanner (hahead : h.Stays text (h.afterAll requests)) :
    (h.after (.lookAhead requests)).scanner = h.scanner := by
  rw [after]
  rcases hahead.2 with hsame | hbeyond
  · exact restore_save.2 (hsame ▸ List.prefix_rfl)
  · exact restore_save.2 hbeyond.findings

theorem stays_after {request : Request} (hrequest : request.Peeks) (h : History)
    (hreached : Reached text h.scanner) : h.Stays text (h.after request) := by
  induction hrequest generalizing h with
  | scan => exact ⟨hreached.scan, .inr (beyond_scan _)⟩
  | lookAhead _ ih =>
    have hsame := lookAhead_scanner (stays_afterAll ih hreached)
    exact ⟨hsame.symm ▸ hreached, .inl hsame⟩

end History

/-! ## Files -/

theorem SyntaxTree.findings_increasing {variant : Variant} {file text : String} {tree : SyntaxTree}
    (h : SyntaxTree.parseAs variant file text = .ok tree) :
    tree.findings.Pairwise (·.start < ·.start) := by
  obtain ⟨root, state, rfl, hdone⟩ := exists_of_parseAs h
  obtain ⟨_, _, -, -, -, -, hreached, -⟩ := sourceFile_fits hdone
  exact hreached.orderly.findings.increasing

namespace Grammar

/-- Wherever a scanner of the text stands, whatever the context, nothing is left of what is tried
in vain (the bound of an inferred type, the type arguments of an expression, an arrow function)
and of looking ahead: the scanner can be brought back by the number of its findings, and nodes and
contexts are values. Only what is remembered of arrow functions may grow. So what is found in a
file is told once, in the order of the text. -/
theorem speculation_leaves_no_trace (text : String) :
    (∀ fuel context state, Reached text state.scanner →
      (inferBound (rules fuel)).Restores context state ∧
      (expressionTypeArguments (rules fuel)).Restores context state ∧
      (parenthesizedArrow (rules fuel) false).Restores context state ∧
      ∀ requests saved, (∀ request ∈ requests, request.Peeks) →
        ((History.mk state.scanner saved).after (.lookAhead requests)).scanner = state.scanner) ∧
    ∀ variant file tree, SyntaxTree.parseAs variant file text = .ok tree →
      tree.findings.Pairwise (·.start < ·.start) := by
  refine ⟨fun fuel context state hreached => ?_, fun _ _ _ => SyntaxTree.findings_increasing⟩
  have hreaches := Source.Reaches.of_reached hreached
  have hrules := rules_follow ⟨text, state.scanner⟩ fuel
  have harrow : (parenthesizedArrow (rules fuel) false).Made ⟨text, state.scanner⟩ (rules fuel)
      ⟨0, context.depth, context.disallowIn⟩ state.offset (fun _ => True) Always fun node k _ =>
        True ∧ node.span.stop = k :=
    parenthesizedArrow_made (eat_leaf (.of_token rfl)) fun _ _ _ _ _ _ _ _ => trivial
  refine ⟨inferBound_yields.restores hrules hreaches,
    expressionTypeArguments_such.restores hrules hreaches, harrow.restores hrules hreaches,
    fun requests saved hrequests => ?_⟩
  have hstays := History.stays_afterAll (h := ⟨state.scanner, saved⟩)
    (fun request hrequest => History.stays_after (hrequests request hrequest)) hreached
  exact History.lookAhead_scanner hstays

/-- The parser fails, in a state that passes the check. -/
def Reply.failsIn {α : Type} (check : State → Bool) : Reply α → Bool
  | .failed _ stop => check stop
  | _ => false

theorem Reply.exists_of_failsIn {α : Type} {check : State → Bool} {reply : Reply α}
    (h : reply.failsIn check) :
    ∃ failure stop, reply = .failed failure stop ∧ check stop := by
  cases reply with
  | failed failure stop => exact ⟨failure, stop, rfl, h⟩
  | done value state | stalled => cases h

/-- Two strings without an end, both read as a part of something else first: of the parameters of an
arrow function, which is given up with a finding of its own, and of type arguments. -/
theorem speculation_leaves_no_trace_strings :
    ∃ tree failure stop, SyntaxTree.parseAs .standard "a.ts" "(a = 'x\n); f<'b\n>c" = .ok tree ∧
      tree.findings.map (·.start) = [5, 13] ∧ tree.findings.Pairwise (·.start < ·.start) ∧
      parenthesizedArrow (rules 20) false (.ofText .standard "(a = 'x\n); f<'b\n>c")
        ⟨(Scanner.ofText "(a = 'x\n); f<'b\n>c").scan, []⟩ = .failed failure stop ∧
      stop.scanner.findings.map (·.start) = [5] ∧
      stop.scanner.restore (Scanner.ofText "(a = 'x\n); f<'b\n>c").scan.save =
        (Scanner.ofText "(a = 'x\n); f<'b\n>c").scan := by
  obtain ⟨tree, hparse, hfindings⟩ : ∃ tree, SyntaxTree.parseAs .standard "a.ts"
      "(a = 'x\n); f<'b\n>c" = .ok tree ∧ tree.findings.map (·.start) = [5, 13] :=
    SyntaxTree.exists_checked (by decide +kernel)
  obtain ⟨failure, stop, hfailed, hstop⟩ : ∃ failure stop, parenthesizedArrow (rules 20) false
      (.ofText .standard "(a = 'x\n); f<'b\n>c")
        ⟨(Scanner.ofText "(a = 'x\n); f<'b\n>c").scan, []⟩ = .failed failure stop ∧
      (stop.scanner.findings.map (·.start) == [5]) = true :=
    Reply.exists_of_failsIn (by decide +kernel)
  obtain ⟨hruns, hfiles⟩ := speculation_leaves_no_trace "(a = 'x\n); f<'b\n>c"
  have harrow := (hruns 20 (.ofText .standard "(a = 'x\n); f<'b\n>c")
    ⟨(Scanner.ofText "(a = 'x\n); f<'b\n>c").scan, []⟩ .start).2.2.1
  exact ⟨tree, failure, stop, hparse, hfindings, hfiles _ _ tree hparse, hfailed,
    beq_iff_eq.1 hstop, (harrow failure stop hfailed).1⟩

end Grammar

end Untype
