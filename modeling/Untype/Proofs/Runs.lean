-- Runs of parsers: what an answer of a parser says about the answers of its
-- parts, and what kind of answer a parser can give at all.
import Untype.Grammar.Parser
import Untype.Proofs.Tilings

namespace Untype.Grammar

/-- The offset at which the next node starts. -/
def State.offset (state : State) : Nat := state.scanner.full.offset

namespace Parser

variable {α β : Type} {context : Context} {state state' : State}
variable {p : Parser α} {value : α} {node : Node} {expected : TokenKind}
variable {question : Scanner → α} {cause : Cause} {what : String} {turn : α → Parser (Turn α β)}
  {fuel : Nat}

/-! ## Answers of single steps -/

theorem bind_done {next : α → Parser β} {value : β} :
    (p >>= next) context state = .done value state' ↔
      ∃ middle state'', p context state = .done middle state'' ∧
        next middle context state'' = .done value state' := by
  simp only [Bind.bind, andThen]
  cases hreply : p context state <;> simp

@[simp]
theorem pure_done {value' : α} :
    (Pure.pure value : Parser α) context state = .done value' state' ↔
      value' = value ∧ state' = state := by
  change Reply.done value state = .done value' state' ↔ _
  rw [Reply.done.injEq, eq_comm, eq_comm (a := state)]

@[simp]
theorem ask_done :
    ask question context state = .done value state' ↔
      value = question state.scanner ∧ state' = state := by
  unfold ask
  rw [Reply.done.injEq, eq_comm, eq_comm (a := state)]

@[simp]
theorem eat_done :
    eat context state = .done node state' ↔
      node = leafOf state.scanner.kind state.scanner ∧
        state' = { state with scanner := state.scanner.scan } := by
  unfold eat
  rw [Reply.done.injEq, eq_comm, eq_comm (b := state')]

@[simp]
theorem fail_done :
    fail cause context state = .done value state' ↔ False := by simp [fail]

@[simp]
theorem failExpected_done :
    failExpected what context state = .done value state' ↔ False := by
  simp only [failExpected, bind_done, ask_done]
  constructor
  · rintro ⟨s, _, ⟨rfl, rfl⟩, h⟩
    split at h <;> cases h
  · exact False.elim

@[simp]
theorem stall_done : stall context state = .done value state' ↔ False := by
  simp [stall]

@[simp]
theorem nested_done :
    nested p context state = .done value state' ↔
      context.depth < maxDepth ∧
        p { context with depth := context.depth + 1 } state = .done value state' := by
  unfold nested
  by_cases hdepth : maxDepth ≤ context.depth
  · simp [hdepth]
  · simp [hdepth, Nat.lt_of_not_le hdepth]

theorem attempt_done {value : Option α} :
    attempt p context state = .done value state' ↔
      (∃ found, value = some found ∧ p context state = .done found state') ∨
        (value = none ∧ ∃ failure stop, p context state = .failed failure stop ∧
          state' = { stop with scanner := state.scanner }) := by
  unfold attempt
  cases p context state <;> simp [eq_comm]

/-- What is done about an arrow function at an offset, in one piece. -/
theorem attemptArrow_eq {offset : Nat} :
    attemptArrow offset p context state =
      if state.failedArrows.contains offset && context.trust == .trusted then .done none state
      else match p context state with
        | .done found stop =>
          if state.failedArrows.contains offset && context.trust == .doubted then .stalled
          else .done (some found) stop
        | .failed _ stop => .done none ⟨state.scanner, offset :: stop.failedArrows⟩
        | .stalled => .stalled := by
  change (if (state.failedArrows.contains offset && context.trust == .trusted) then _
    else _ : Parser (Option α)) context state = _
  split
  · rfl
  · simp only [Bind.bind, andThen, Parser.attempt]
    cases p context state with
    | done found stop =>
      dsimp only
      split <;> rfl
    | failed failure stop | stalled => rfl

/-- An arrow function that is tried answers with what it found, or with nothing where it was. -/
theorem attemptArrow_done {offset : Nat} {answer : Option α}
    (h : attemptArrow offset p context state = .done answer state') :
    (∃ found, answer = some found ∧ p context state = .done found state') ∨
      (answer = none ∧ state'.scanner = state.scanner) := by
  rw [attemptArrow_eq] at h
  split at h
  · cases h
    exact .inr ⟨rfl, rfl⟩
  · split at h
    · rename_i found stop hfound
      split at h
      · cases h
      · cases h
        exact .inl ⟨found, rfl, hfound⟩
    · cases h
      exact .inr ⟨rfl, rfl⟩
    · cases h

theorem loopFrom_done {first : α} {value : β}
    (h : loopFrom first turn context state = .done value state') :
    ∃ last state'', turn last context state'' = .done (.finish value) state' := by
  change Parser.iterate turn context.budget first context state = _ at h
  generalize context.budget = fuel at h
  induction fuel generalizing first state with
  | zero => cases h
  | succ fuel ih =>
    obtain ⟨result, state'', hturn, hrest⟩ := bind_done.1 h
    cases result with
    | again next => exact ih hrest
    | finish result =>
      cases hrest
      exact ⟨first, state, hturn⟩

@[simp]
theorem ite_done {c : Prop} [Decidable c] {q : Parser α} :
    (if c then p else q) context state = .done value state' ↔
      if c then p context state = .done value state' else q context state = .done value state' := by
  split <;> rfl

@[simp]
theorem expect_done :
    expect expected context state = .done node state' ↔
      state.scanner.kind = expected ∧ node = leafOf expected state.scanner ∧
        state' = { state with scanner := state.scanner.scan } := by
  have hsteps : expect expected context state = .done node state' ↔
      (if state.scanner.kind == expected then eat else failExpected (expected.text?.getD "token"))
        context state = .done node state' := Iff.rfl
  rw [hsteps, ite_done]
  by_cases hkind : state.scanner.kind = expected
  · subst hkind
    simp
  · simp [hkind]

/-! ## What holds after a run -/

/-- Whatever the parser answers from here, it is as promised. -/
def Ends (p : Parser α) (context : Context) (state : State) (post : α → State → Prop) : Prop :=
  ∀ value state', p context state = .done value state' → post value state'

section Ends

variable {p : Parser α} {next : α → Parser β} {post : β → State → Prop}

theorem Ends.bind
    (h : p.Ends context state fun value state' => (next value).Ends context state' post) :
    (p >>= next).Ends context state post := by
  intro value state' hdone
  obtain ⟨middle, state'', hfirst, hnext⟩ := bind_done.1 hdone
  exact h middle state'' hfirst value state' hnext

theorem Ends.askContext {next : Context → Parser β} (h : (next context).Ends context state post) :
    (Parser.context >>= next).Ends context state post := h

theorem Ends.nested {p : Parser β}
    (h : context.depth < maxDepth → p.Ends { context with depth := context.depth + 1 } state post) :
    (Parser.nested p).Ends context state post := by
  intro value state' hdone
  obtain ⟨hdepth, hdone⟩ := nested_done.1 hdone
  exact h hdepth value state' hdone

theorem Ends.within {p : Parser β} {change : Context → Context}
    (h : p.Ends (change context) state post) : (Parser.within change p).Ends context state post := h

theorem Ends.pure {value : β} (h : post value state) :
    (Pure.pure value : Parser β).Ends context state post := by
  intro value' state' hdone
  obtain ⟨rfl, rfl⟩ := pure_done.1 hdone
  exact h

theorem Ends.fail : (Parser.fail cause : Parser β).Ends context state post :=
  fun _ _ hdone => (fail_done.1 hdone).elim

theorem Ends.mono {post' : α → State → Prop} {post : α → State → Prop}
    (hp : p.Ends context state post') (h : ∀ value state', post' value state' → post value state') :
    p.Ends context state post :=
  fun value state' hdone => h value state' (hp value state' hdone)

/-- A turn that goes on keeps what holds before it, and one that finishes does as promised. -/
def Turn.Holds (inv : α → State → Prop) (post : β → State → Prop) : Turn α β → State → Prop
  | .again value => inv value
  | .finish result => post result

theorem Ends.loop (inv : α → State → Prop) {first : α}
    (hfirst : inv first state)
    (hturn : ∀ value state, inv value state →
      (turn value).Ends context state (Turn.Holds inv post)) :
    (loopFrom first turn).Ends context state post := by
  suffices hloop : ∀ fuel value state, inv value state →
      (iterate turn fuel value).Ends context state post from
    .askContext (hloop context.budget first state hfirst)
  intro fuel
  induction fuel with
  | zero => exact fun _ _ _ _ _ hdone => (stall_done.1 hdone).elim
  | succ fuel ih =>
    refine fun value state hvalue => .bind ((hturn value state hvalue).mono ?_)
    intro result state' hresult
    cases result with
    | again value' => exact ih value' state' hresult
    | finish result => exact .pure hresult

end Ends

/-! ## Runs that come to an answer -/

/-- The parser answers from here, and as promised. -/
def Succeeds (p : Parser α) (context : Context) (state : State) (post : α → State → Prop) : Prop :=
  ∃ value state', p context state = .done value state' ∧ post value state'

section Succeeds

variable {p : Parser α} {next : α → Parser β} {post : β → State → Prop}
variable {turn : α → Parser (Turn α β)}

theorem Succeeds.bind
    (h : p.Succeeds context state fun value state' => (next value).Succeeds context state' post) :
    (p >>= next).Succeeds context state post := by
  obtain ⟨middle, state'', hfirst, value, state', hnext, hpost⟩ := h
  exact ⟨value, state', bind_done.2 ⟨middle, state'', hfirst, hnext⟩, hpost⟩

theorem Succeeds.ask
    (h : (next (question state.scanner)).Succeeds context state post) :
    (Parser.ask question >>= next).Succeeds context state post := h

theorem Succeeds.kind {next : TokenKind → Parser β}
    (h : (next state.scanner.kind).Succeeds context state post) :
    (Parser.kind >>= next).Succeeds context state post := h

theorem Succeeds.tokenIs {next : Bool → Parser β}
    (h : (next (state.scanner.kind == expected)).Succeeds context state post) :
    (Parser.tokenIs expected >>= next).Succeeds context state post := h

theorem Succeeds.askContext {next : Context → Parser β}
    (h : (next context).Succeeds context state post) :
    (Parser.context >>= next).Succeeds context state post := h

theorem Succeeds.moveBy {advance : Scanner → Scanner} {next : Unit → Parser β}
    (h : (next ()).Succeeds context { state with scanner := advance state.scanner } post) :
    (Parser.moveBy advance >>= next).Succeeds context state post := h

theorem Succeeds.eat {next : Node → Parser β}
    (h : (next (leafOf state.scanner.kind state.scanner)).Succeeds context
      { state with scanner := state.scanner.scan } post) :
    (Parser.eat >>= next).Succeeds context state post := h

theorem Succeeds.expect {next : Node → Parser β} (hkind : state.scanner.kind = expected)
    (h : (next (leafOf expected state.scanner)).Succeeds context
      { state with scanner := state.scanner.scan } post) :
    (Parser.expect expected >>= next).Succeeds context state post :=
  .bind ⟨_, _, expect_done.2 ⟨hkind, rfl, rfl⟩, h⟩

theorem Succeeds.pure {value : β} (h : post value state) :
    (Pure.pure value : Parser β).Succeeds context state post :=
  ⟨value, state, rfl, h⟩

theorem Succeeds.nested {p : Parser β} (hdepth : context.depth < maxDepth)
    (h : p.Succeeds { context with depth := context.depth + 1 } state post) :
    (Parser.nested p).Succeeds context state post := by
  obtain ⟨value, state', hdone, hpost⟩ := h
  exact ⟨value, state', nested_done.2 ⟨hdepth, hdone⟩, hpost⟩

theorem Succeeds.mono {post' post : α → State → Prop} (hp : p.Succeeds context state post')
    (h : ∀ value state', post' value state' → post value state') :
    p.Succeeds context state post := by
  obtain ⟨value, state', hdone, hpost⟩ := hp
  exact ⟨value, state', hdone, h value state' hpost⟩

theorem Succeeds.again (h : (turn value).Succeeds context state fun decision state' =>
      ∃ value', decision = .again value' ∧
        (iterate turn fuel value').Succeeds context state' post) :
    (iterate turn (fuel + 1) value).Succeeds context state post := by
  refine .bind (h.mono fun decision state' hdecision => ?_)
  obtain ⟨value', rfl, hrest⟩ := hdecision
  exact hrest

/-- A loop whose next turn ends has an answer. -/
theorem Succeeds.finish (hfuel : 0 < fuel)
    (h : (turn value).Succeeds context state fun decision state' =>
      ∃ result, decision = .finish result ∧ post result state') :
    (iterate turn fuel value).Succeeds context state post := by
  obtain ⟨fuel, rfl⟩ : ∃ n, fuel = n + 1 := ⟨fuel - 1, by omega⟩
  refine .bind (h.mono fun decision state' hdecision => ?_)
  obtain ⟨result, rfl, hpost⟩ := hdecision
  exact .pure hpost

end Succeeds

/-! ### What is not there -/

theorem none_of_kind_ne {p : Parser (List Node)} (h : state.scanner.kind ≠ expected) :
    (tokenIs expected >>= fun found => if found then p else Pure.pure []) context state =
      .done [] state :=
  bind_done.2 ⟨false, state, by simp [tokenIs, h], rfl⟩

theorem parseIf_none {question : Scanner → Bool} {p : Parser Node}
    (h : question state.scanner = false) : parseIf question p context state = .done [] state := by
  have hnone : (parseIf question p).Succeeds context state fun nodes state' =>
      nodes = [] ∧ state' = state := by
    refine .ask ?_
    rw [h, if_neg (by simp)]
    exact .pure ⟨rfl, rfl⟩
  obtain ⟨_, _, hdone, rfl, rfl⟩ := hnone
  exact hdone

section Answers

variable {p : Parser α} {next : α → Parser β} {post : β → State → Prop}

end Answers

/-! ## Kinds of answers -/

end Parser

end Untype.Grammar
