-- Parsers that come to an end. Between two tokens a production only comes to
-- productions of lower rank, and a loop turns only as it takes tokens, so
-- that neither fuel nor budget ever runs out.
import Untype.Proofs.Anatomy.Ends

namespace Untype

open Untype.Node

namespace Scanner

variable {text : String} {s : Scanner}

/-! ## What is ahead -/

/-- How many characters are ahead, those of the current token and its trivia included. -/
def ahead (s : Scanner) : Nat := s.full.rest.length

end Scanner

namespace Grammar

variable {ahead : Nat}

/-! ## Promises -/

/-- A context in which loops can turn once more than there are characters ahead and
in which a parser is not stopped on purpose. -/
structure Context.Serves (ahead : Nat) (context : Context) : Prop where
  budget : ahead < context.budget
  trust : context.trust ≠ .doubted

/-- The parser comes to an end. If it answers, no more is ahead than was before, and less if the
answer `took` something. -/
def Reply.Meets {α : Type} (took : α → Prop) (state : State) : Reply α → Prop
  | .done value state' => state'.scanner.ahead ≤ state.scanner.ahead ∧
      (took value → state'.scanner.ahead < state.scanner.ahead)
  | .failed _ _ => True
  | .stalled => False

/-- Where less than this is ahead, every production comes to an end and takes a token. Where so much
is ahead, those below the rank do. -/
structure Rules.Serve (text : Source) (r : Rules) (ahead rank : Nat) : Prop where
  fit : r.Fit text
  meets : ∀ production context state, context.Serves state.scanner.ahead →
    text.Reaches state.scanner →
    (state.scanner.ahead < ahead ∨ state.scanner.ahead = ahead ∧ production.rank < rank) →
    (r production context state).Meets Parser.Always state

theorem Rules.Serve.before {text : Source} {r : Rules} {ahead' rank rank' : Nat}
    (h : r.Serve text ahead rank) (hlt : ahead' < ahead) : r.Serve text ahead' rank' :=
  ⟨h.fit, fun production context state hcontext hreached hahead =>
    h.meets production context state hcontext hreached (.inl (by omega))⟩

theorem Rules.Serve.still {text : Source} {r : Rules} {rank : Nat} (h : r.Serve text ahead rank) :
    r.Serve text ahead 0 :=
  ⟨h.fit, fun production context state hcontext hreached hahead =>
    h.meets production context state hcontext hreached (hahead.imp_right fun h => absurd h.2
      (by omega))⟩

theorem Context.Serves.mono {ahead' : Nat} {context : Context}
    (h : context.Serves ahead) (hle : ahead' ≤ ahead) : context.Serves ahead' :=
  ⟨Nat.lt_of_le_of_lt hle h.budget, h.trust⟩

variable {α β : Type} {text : Source} {r : Rules} {g : Level} {rank j : Nat} {pre : Scanner → Prop}
  {p : Parser α} {took : α → Prop} {post : α → Nat → Scanner → Prop} {context : Context}
  {state state' : State}
variable {reply : Reply α} {took' : α → Prop}

theorem Reply.Meets.weaken (h : reply.Meets took' state)
    (htook : ∀ value, took value → took' value) : reply.Meets took state := by
  cases reply with
  | done value state' => exact ⟨h.1, fun hvalue => h.2 (htook value hvalue)⟩
  | failed failure stop => trivial
  | stalled => exact h

theorem Reply.Meets.after (h : reply.Meets took' state')
    (hlt : state'.scanner.ahead < state.scanner.ahead) : reply.Meets took state := by
  cases reply with
  | done value stop =>
    have hle := h.1
    exact ⟨by omega, fun _ => by omega⟩
  | failed failure stop => trivial
  | stalled => exact h

theorem Reply.Meets.trans (h : reply.Meets took state')
    (hle : state'.scanner.ahead ≤ state.scanner.ahead) : reply.Meets took state := by
  cases reply with
  | done value stop =>
    exact ⟨Nat.le_trans h.1 hle, fun hvalue => Nat.lt_of_lt_of_le (h.2 hvalue) hle⟩
  | failed failure stop => trivial
  | stalled => exact h

namespace Parser

/-- After a token was taken every production may follow. Otherwise only those that could come
first. -/
theorem meets_bind {next : α → Parser β} {took : β → Prop}
    (hrules : r.Serve text state.scanner.ahead rank)
    (hcontext : context.Serves state.scanner.ahead)
    (h : (p context state).Meets took' state)
    (htaken : ∀ value state', p context state = .done value state' → took' value →
      r.Serve text state'.scanner.ahead topRank → context.Serves state'.scanner.ahead →
      (next value context state').Meets Perhaps state')
    (hother : ∀ value state', p context state = .done value state' → ¬ took' value →
      r.Serve text state'.scanner.ahead rank → context.Serves state'.scanner.ahead →
      (next value context state').Meets took state') :
    ((p >>= next) context state).Meets took state := by
  simp only [Bind.bind, andThen]
  cases hreply : p context state with
  | stalled => simp [hreply, Reply.Meets] at h
  | failed failure stop => trivial
  | done value state' =>
    rw [hreply] at h
    obtain ⟨hle, hlt⟩ := h
    by_cases hvalue : took' value
    · have hlt := hlt hvalue
      exact (htaken value state' hreply hvalue (hrules.before hlt) (hcontext.mono hle)).after hlt
    · have hrules' : r.Serve text state'.scanner.ahead rank := by
        rcases Nat.lt_or_eq_of_le hle with hlt | heq
        · exact hrules.before hlt
        · exact heq ▸ hrules
      exact (hother value state' hreply hvalue hrules' (hcontext.mono hle)).trans hle

theorem meets_attempt (h : (p context state).Meets Always state) :
    (Parser.attempt p context state).Meets (fun found => found.isSome) state := by
  unfold Parser.attempt
  cases hreply : p context state with
  | stalled => simp [hreply, Reply.Meets] at h
  | failed failure stop => exact ⟨Nat.le_refl _, by simp⟩
  | done value state' =>
    rw [hreply] at h
    exact ⟨h.1, fun _ => h.2 trivial⟩

theorem meets_attemptArrow {offset : Nat} (htrust : context.trust ≠ .doubted)
    (h : (p context state).Meets Always state) :
    (Parser.attemptArrow offset p context state).Meets (fun found => found.isSome) state := by
  have hnothing : (Reply.done (none : Option α) state).Meets (fun found => found.isSome)
    state := ⟨Nat.le_refl _, by simp⟩
  rw [attemptArrow_eq]
  split
  · exact hnothing
  · cases hreply : p context state with
    | stalled => simp [hreply, Reply.Meets] at h
    | failed failure stop => exact hnothing
    | done value state' =>
      rw [hreply] at h
      dsimp only
      rw [if_neg (by simp [htrust])]
      exact ⟨h.1, fun _ => h.2 trivial⟩

/-- A loop ends if each of its turns does and takes something, the last one apart. -/
theorem meets_iterate (inv : α → State → Prop) {turn : α → Parser (Turn α β)}
    (hturn : ∀ value state, inv value state → r.Serve text state.scanner.ahead rank →
      context.Serves state.scanner.ahead →
      (turn value context state).Meets Turn.Advances state ∧
        ∀ value' state', turn value context state = .done (.again value') state' →
          inv value' state') :
    ∀ fuel value state, state.scanner.ahead < fuel → inv value state →
      r.Serve text state.scanner.ahead rank → context.Serves state.scanner.ahead →
      (Parser.iterate turn fuel value context state).Meets Perhaps state
  | 0, _, _, hfuel, _, _, _ => absurd hfuel (Nat.not_lt_zero _)
  | fuel + 1, value, state, hfuel, hvalue, hrules, hcontext => by
    obtain ⟨honce, hagain⟩ := hturn value state hvalue hrules hcontext
    simp only [Parser.iterate, Bind.bind, andThen]
    cases hreply : turn value context state with
    | stalled => simp [hreply, Reply.Meets] at honce
    | failed failure stop => trivial
    | done decision state' =>
      rw [hreply] at honce
      obtain ⟨hle, hlt⟩ := honce
      cases decision with
      | finish result => exact ⟨hle, False.elim⟩
      | again value' =>
        -- The turn took a token, so there is fuel left for what is ahead now.
        have hlt := hlt trivial
        exact (meets_iterate inv hturn fuel value' state' (by omega) (hagain value' state' hreply)
          (hrules.before hlt) (hcontext.mono hle)).after hlt

theorem meets_take {node : Node} {next : Scanner} (hreached : state.scanner.Reached text)
    (hkind : state.scanner.kind ≠ .endOfFile) (hfull : next.full = state.scanner.here) :
    (Reply.done node { state with scanner := next }).Meets Always state := by
  have hlt : next.ahead < state.scanner.ahead := by
    rw [Scanner.ahead, hfull]
    exact Nat.lt_of_lt_of_le (hreached.fits.here.length_lt (hreached.moves hkind))
      hreached.fits.start.length_le
  exact ⟨Nat.le_of_lt hlt, fun _ => hlt⟩

/-- Every parser that the rules make comes to an end, as long as the productions below the rank
do. -/
theorem Made.meets (h : Made text r g j pre p took post) (context : Context) (state : State)
    (hs : Starts text g j pre context state) (hrules : r.Serve text state.scanner.ahead g.rank)
    (hcontext : context.Serves state.scanner.ahead) : (p context state).Meets took state := by
  induction h generalizing context state with
  | answer htook _ => exact ⟨Nat.le_refl _, fun h => absurd h htook⟩
  | chain hfirst _ _ ih ihtaken ihother =>
    have hmid := hfirst.ends hrules.fit context state hs
    refine meets_bind hrules hcontext (ih context state hs hrules hcontext)
      (fun value state' hdone hvalue hrules' hcontext' => ?_)
      fun value state' hdone hvalue hrules' hcontext' => ?_
    · obtain ⟨hreached', hmid⟩ := hmid value state' hdone
      exact ihtaken value _ hvalue context state' (hs.next hreached' hmid) hrules' hcontext'
    · obtain ⟨hreached', hmid⟩ := hmid value state' hdone
      exact ihother value _ hvalue context state' (hs.next hreached' hmid) hrules' hcontext'
  | look _ => exact ⟨Nat.le_refl _, False.elim⟩
  | ground _ _ ih => exact ih context hs.noIn context state hs hrules hcontext
  | fail => trivial
  | take havoids _ | takeAs havoids _ =>
    exact meets_take hs.reached.reached (havoids _ hs.known) rfl
  | takeJsx havoids _ =>
    exact meets_take hs.reached.reached (havoids _ hs.known) (Scanner.scanJsx_full _)
  | reread _ hadvance _ =>
    exact ⟨Nat.le_of_eq (by rw [Scanner.ahead, (hadvance.place _).1, Scanner.ahead]), False.elim⟩
  | within hallows _ ih =>
    obtain ⟨-, hbudget, -, hblind⟩ := hallows context
    have htrust := congrArg Context.trust (hblind context.trust)
    exact ih _ state (hs.within hallows) hrules
      ⟨hbudget ▸ hcontext.budget, fun h => hcontext.trust (htrust.symm.trans h)⟩
  | nested _ ih =>
    unfold Parser.nested
    split
    · trivial
    · rename_i hroom
      exact ih (hs.depth ▸ Nat.lt_of_not_le hroom) _ state hs.deeper hrules
        ⟨hcontext.budget, hcontext.trust⟩
  | attempt hp _ _ ih =>
    exact meets_attempt (ih context state hs.still hrules.still hcontext)
  | attemptArrow hp _ _ ih =>
    exact meets_attemptArrow hcontext.trust
      (ih context state hs.still hrules.still hcontext)
  | loop inv hfirst hturn ih =>
    refine meets_iterate (fun value state => text.Reaches state.scanner ∧
      inv value state.offset state.scanner) (fun value state hvalue hrules hcontext => ⟨?_, ?_⟩)
      context.budget _ state hcontext.budget ⟨hs.reached, hs.offset ▸ hfirst _ hs.known⟩ hrules
      hcontext
    · exact ih value _ context state (hs.next hvalue.1 hvalue.2) hrules hcontext
    · intro value' state' hdone
      exact (hturn value _).ends hrules.fit context state (hs.next hvalue.1 hvalue.2) _ state' hdone
  | rule hrank _ => exact hrules.meets _ context state hcontext hs.reached (.inr ⟨rfl, hrank⟩)
  | weaken _ hpre' htook _ ih =>
    exact (ih context state (hs.weaken hpre') hrules hcontext).weaken htook
  | given hknown _ ih => exact ih (hknown _ hs.known) context state hs hrules hcontext

end Parser

/-- Fuel for what is ahead is enough: between two tokens the rank falls with each step. -/
theorem rules_serve (text : Source) (fuel : Nat) {rank : Nat} (h : topRank * ahead + rank ≤ fuel) :
    (rules fuel).Serve text ahead rank := by
  induction fuel generalizing ahead rank with
  | zero =>
    refine ⟨rules_fit text 0, fun production context state _ _ hahead => ?_⟩
    simp only [topRank] at h
    omega
  | succ fuel ih =>
    refine ⟨rules_fit text _, fun production context state hcontext hreached hahead => ?_⟩
    have hrank := production.rank_lt
    have hserves : (rules fuel).Serve text state.scanner.ahead production.rank := by
      refine ih ?_
      simp only [topRank] at h hrank ⊢
      omega
    exact (rules_bring fuel production).meets context state ⟨rfl, rfl, hreached, rfl, trivial⟩
      hserves hcontext

end Grammar

end Untype
