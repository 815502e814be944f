-- Where arrow functions were tried in vain is remembered by their places
-- alone. A place is not the whole story: an arrow function that fails in one
-- context may be found in another. Unless that happens, it makes no difference
-- to the reading of a text whether the memory is used or not.
import Untype.Convert
import Untype.Proofs.Speculation.Traces

namespace Untype.Grammar

open Untype.Scanner Untype.Grammar.Parser

/-! ## Two runs side by side -/

/-- The context, with another view of what is remembered. -/
def Context.recalling (trust : Recall) (context : Context) : Context := { context with trust }

/-- The states of two runs, the second of which doubts what it remembers. They differ only in what
they remember, and what the first one trusts is known to the second one. -/
structure State.Matches (trust : Recall) (s t : State) : Prop where
  scanner : s.scanner = t.scanner
  memory : trust = .trusted → s.failedArrows ⊆ t.failedArrows

/-- The answers of two runs are the same, unless the second one came to no end. -/
inductive Reply.Matches {α : Type} (trust : Recall) : Reply α → Reply α → Prop where
  | done {value : α} {s t : State} : s.Matches trust t → Matches trust (.done value s)
      (.done value t)
  | failed {failure : Failure} {s t : State} : s.Matches trust t →
    Matches trust (.failed failure s) (.failed failure t)
  | stalled {reply : Reply α} : Matches trust reply .stalled

/-- The run came to no end. -/
def Reply.isStalled {α : Type} : Reply α → Bool
  | .stalled => true
  | _ => false

variable {text : Source} {trust : Recall} {α β : Type} {r : Rules} {g : Level} {j : Nat}
  {pre : Scanner → Prop} {p : Parser α} {took : α → Prop} {post : α → Nat → Scanner → Prop}
  {c d : Context} {s t : State}

theorem State.Matches.advance (h : s.Matches trust t) (advance : Scanner → Scanner) :
    State.Matches trust { s with scanner := advance s.scanner }
      { t with scanner := advance t.scanner } :=
  ⟨congrArg advance h.scanner, h.memory⟩

theorem matches_fail {cause : Cause} (h : s.Matches trust t) :
    (fail cause c s : Reply α).Matches trust (fail cause d t) := by
  unfold fail
  rw [h.scanner]
  exact .failed h

theorem matches_bind {next : α → Parser β} (h : (p c s).Matches trust (p d t))
    (hnext : ∀ value s' t', p d t = .done value t' → s'.Matches trust t' →
      (next value c s').Matches trust (next value d t')) :
    ((p >>= next) c s).Matches trust ((p >>= next) d t) := by
  simp only [Bind.bind, andThen]
  generalize hfirst : p c s = first at h
  generalize hsecond : p d t = second at h
  cases h with
  | done hstates => exact hnext _ _ _ hsecond hstates
  | failed hstates => exact .failed hstates
  | stalled => exact .stalled

theorem matches_attempt (h : (p c s).Matches trust (p d t)) (hstates : s.Matches trust t) :
    (Parser.attempt p c s).Matches trust (Parser.attempt p d t) := by
  unfold Parser.attempt
  generalize p c s = first at h
  generalize p d t = second at h
  cases h with
  | done hstop => exact .done hstop
  | failed hstop => exact .done ⟨hstates.scanner, hstop.memory⟩
  | stalled => exact .stalled

/-- The one step that looks at what is remembered. Where the first run trusts its memory, the second
one tries again: it fails, or it comes to no end. -/
theorem matches_attemptArrow {context : Context} (htrust : trust ≠ .doubted) (offset : Nat)
    (h : (p (context.recalling trust) s).Matches trust (p (context.recalling .doubted) t))
    (hstates : s.Matches trust t)
    (hgrows : ∀ failure stop, p (context.recalling .doubted) t = .failed failure stop →
      t.failedArrows ⊆ stop.failedArrows) :
    (attemptArrow offset p (context.recalling trust) s).Matches trust
      (attemptArrow offset p (context.recalling .doubted) t) := by
  have hdoubts : (t.failedArrows.contains offset &&
      (context.recalling .doubted).trust == .trusted) = false := by simp [Context.recalling]
  have htrusts : (s.failedArrows.contains offset &&
      (context.recalling trust).trust == .doubted) = false := by simp [Context.recalling, htrust]
  rw [attemptArrow_eq, attemptArrow_eq, hdoubts, htrusts]
  simp only [Bool.false_eq_true, if_false]
  split
  · rename_i hskips
    obtain ⟨hknown, rfl⟩ : offset ∈ s.failedArrows ∧ trust = .trusted := by
      simpa [Context.recalling] using hskips
    have hmemory := hstates.memory rfl
    cases hreply : p (context.recalling .doubted) t with
    | done value stop =>
      have hdoubted : (t.failedArrows.contains offset &&
          (context.recalling .doubted).trust == .doubted) := by
        simp [Context.recalling, hmemory hknown]
      simp only [hdoubted, if_true]
      exact .stalled
    | failed failure stop =>
      refine .done ⟨hstates.scanner, fun _ => ?_⟩
      exact fun known hmem => List.mem_cons_of_mem _ (hgrows failure stop hreply (hmemory hmem))
    | stalled => exact .stalled
  · generalize p (context.recalling trust) s = first at h
    generalize p (context.recalling .doubted) t = second at h
    cases h with
    | done hstop =>
      dsimp only
      split
      · exact .stalled
      · exact .done hstop
    | failed hstop =>
      exact .done ⟨hstates.scanner, fun htrusted => List.cons_subset_cons _ (hstop.memory htrusted)⟩
    | stalled => exact .stalled

/-- The productions give the same answers, whatever is made of the memory. -/
def Rules.Match (text : Source) (trust : Recall) (r : Rules) : Prop :=
  ∀ production (context : Context) s t, s.Matches trust t → text.Reaches t.scanner →
    (r production (context.recalling trust) s).Matches trust
      (r production (context.recalling .doubted) t)

/-- Two loops side by side, as long as their turns give the same answers. -/
theorem matches_iterate {turn : α → Parser (Turn α β)} (holds : α → State → Prop)
    (hturn : ∀ value s t, s.Matches trust t → holds value t →
      (turn value c s).Matches trust (turn value d t) ∧
        ∀ value' t', turn value d t = .done (.again value') t' → holds value' t') :
    ∀ fuel value s t, s.Matches trust t → holds value t →
      (iterate turn fuel value c s).Matches trust (iterate turn fuel value d t) := by
  intro fuel
  induction fuel with
  | zero => exact fun _ _ _ _ _ => .stalled
  | succ fuel ih =>
    intro value s t hstates hvalue
    obtain ⟨honce, hagain⟩ := hturn value s t hstates hvalue
    refine matches_bind honce fun result s' t' hdone hstates' => ?_
    cases result with
    | again value' => exact ih value' s' t' hstates' (hagain value' t' hdone)
    | finish result => exact .done hstates'

/-- A run that trusts or ignores what it remembers gives the answer of the run that doubts it. -/
theorem Parser.Made.matches (h : Made text r g j pre p took post) (htrust : trust ≠ .doubted)
    (hr : r.Follow text) (hmatch : r.Match text trust) (context : Context) (s t : State)
    (hs : Starts text g j pre (context.recalling .doubted) t) (hstates : s.Matches trust t) :
    (p (context.recalling trust) s).Matches trust (p (context.recalling .doubted) t) := by
  induction h generalizing context s t with
  | answer _ _ => exact .done hstates
  | @chain _ _ _ _ _ took' _ _ _ _ _ hfirst _ _ ih ihtaken ihother =>
    refine matches_bind (ih context s t hs hstates) fun value s' t' hdone hstates' => ?_
    obtain ⟨hreached, hmid⟩ := hfirst.ends hr.fit (context.recalling .doubted) t hs value t' hdone
    by_cases hvalue : took' value
    · exact ihtaken value _ hvalue context s' t' (hs.next hreached hmid) hstates'
    · exact ihother value _ hvalue context s' t' (hs.next hreached hmid) hstates'
  | look _ =>
    unfold Parser.ask
    rw [hstates.scanner]
    exact .done hstates
  | @ground _ next _ _ _ _ _ hblind _ ih =>
    have hnext : ∀ trust, next (context.recalling trust) = next context := hblind context
    change (next _ (context.recalling trust) s).Matches trust
      (next _ (context.recalling .doubted) t)
    rw [hnext, hnext]
    exact ih context hs.noIn context s t hs hstates
  | fail => exact matches_fail hstates
  | take _ _ | takeAs _ _ | takeJsx _ _ =>
    simp only [Parser.eat, Parser.eatAs, Parser.eatJsx, hstates.scanner]
    exact .done ⟨rfl, hstates.memory⟩
  | reread _ hadvance _ => exact .done (hstates.advance _)
  | @within change _ _ _ _ _ _ _ _ hallows _ ih =>
    have hchange : ∀ trust, change (context.recalling trust) = (change context).recalling trust :=
      (hallows context).2.2.2
    simp only [Parser.within, hchange]
    exact ih (change context) s t (hchange .doubted ▸ hs.within hallows) hstates
  | nested _ ih =>
    -- How deep the context is does not depend on what is made of the memory.
    change Reply.Matches trust (if maxDepth ≤ context.depth then _ else _)
      (if maxDepth ≤ context.depth then _ else _)
    split
    · exact matches_fail hstates
    · rename_i hroom
      exact ih (hs.depth ▸ Nat.lt_of_not_le hroom) { context with depth := context.depth + 1 } s t
        hs.deeper hstates
  | attempt _ _ _ ih =>
    exact matches_attempt (ih context s t hs.still hstates) hstates
  | attemptArrow hp _ _ ih =>
    have hs := hs.still
    refine matches_attemptArrow htrust _ (ih context s t hs hstates) hstates
      fun failure stop hfailed => ?_
    have htraces := hp.traces hr (context.recalling .doubted) t hs
    rw [hfailed] at htraces
    exact htraces.1.memory.subset
  | loop inv hfirst hturn ih =>
    refine matches_iterate (fun value t => text.Reaches t.scanner ∧ inv value t.offset t.scanner)
      (fun value s t hstates hvalue => ⟨?_, fun value' t' hdone => ?_⟩) context.budget _ s t hstates
      ⟨hs.reached, hs.offset ▸ hfirst _ hs.known⟩
    · exact ih value _ context s t (hs.next hvalue.1 hvalue.2) hstates
    · exact (hturn value _).ends hr.fit (context.recalling .doubted) t (hs.next hvalue.1 hvalue.2) _
        t' hdone
  | rule _ _ => exact hmatch _ context s t hstates hs.reached
  | weaken _ hpre _ _ ih => exact ih context s t (hs.weaken hpre) hstates
  | given hknown _ ih => exact ih (hknown _ hs.known) context s t hs hstates

theorem rules_match (text : Source) (htrust : trust ≠ .doubted) (fuel : Nat) :
    (rules fuel).Match text trust := by
  induction fuel with
  | zero => exact fun _ _ _ _ _ _ => .stalled
  | succ fuel ih =>
    intro production context s t hstates hreached
    exact (rules_bring fuel production).matches htrust (rules_follow text fuel) ih context s t
      ⟨rfl, rfl, hreached, rfl, trivial⟩ hstates

/-- Two readings of a whole file. -/
theorem sourceFile_matches (text : String) (htrust : trust ≠ .doubted) (fuel : Nat)
    (context : Context) :
    (sourceFile (rules fuel) (context.recalling trust) ⟨Scanner.ofText text, []⟩).Matches trust
      (sourceFile (rules fuel) (context.recalling .doubted) ⟨Scanner.ofText text, []⟩) := by
  have hstatements := (statements_stand fuel).matches htrust (rules_follow _ fuel)
    (rules_match _ htrust fuel) context ⟨(Scanner.ofText text).scan, []⟩
    ⟨(Scanner.ofText text).scan, []⟩ ⟨rfl, rfl, .of_reached .start, rfl, trivial⟩
    ⟨rfl, fun _ => List.Subset.refl _⟩
  have hend : ∀ statements s t, State.Matches trust s t →
      ((do return Node.group .sourceFile (statements ++ [← eat]) : Parser Node)
        (context.recalling trust) s).Matches trust
        ((do return Node.group .sourceFile (statements ++ [← eat]) : Parser Node)
          (context.recalling .doubted) t) := by
    intro statements s t hstates
    simp only [Bind.bind, andThen, eat, hstates.scanner]
    exact .done ⟨rfl, hstates.memory⟩
  have hfile := matches_bind hstatements fun statements s t _ => hend statements s t
  exact hfile

end Untype.Grammar

namespace Untype.SyntaxTree

open Untype.Grammar Untype.Scanner

variable {variant : Variant} {file text : String}

/-! ## Files -/

/-- Where an arrow function was tried in vain, none is found later, whatever the context. A reading
that tries it there again, and comes to no end if it is found, comes to its end. -/
def ArrowsSettled (variant : Variant) (text : String) : Prop :=
  (sourceFile (rules (recursionBudget text)) ((Context.ofText variant text).recalling .doubted)
    ⟨Scanner.ofText text, []⟩).isStalled = false

instance (variant : Variant) (text : String) : Decidable (ArrowsSettled variant text) :=
  inferInstanceAs (Decidable (_ = false))

/-- If arrow functions are settled, what is remembered of them may as well be ignored: the same tree
or the same error is found. -/
theorem parseFrom_ignoring (h : ArrowsSettled variant text) :
    parseFrom ((Context.ofText variant text).recalling .ignored) variant file text =
      parseAs variant file text := by
  have hruns : ∀ trust, trust ≠ .doubted → Reply.Matches trust
      (sourceFile (rules (recursionBudget text)) ((Context.ofText variant text).recalling trust)
        ⟨Scanner.ofText text, []⟩)
      (sourceFile (rules (recursionBudget text)) ((Context.ofText variant text).recalling .doubted)
        ⟨Scanner.ofText text, []⟩) := fun _ htrust => sourceFile_matches text htrust _ _
  have hignored := hruns .ignored (by decide)
  have htrusted := hruns .trusted (by decide)
  clear hruns
  change parseFrom _ variant file text =
    parseFrom ((Context.ofText variant text).recalling .trusted) variant file text
  unfold ArrowsSettled at h
  unfold parseFrom
  dsimp only
  generalize sourceFile _ (Context.recalling .doubted _) _ = doubting at h hignored htrusted
  generalize sourceFile _ (Context.recalling .ignored _) _ = ignoring at hignored ⊢
  generalize sourceFile _ (Context.recalling .trusted _) _ = trusting at htrusted ⊢
  cases hignored with
  | done hstates =>
    cases htrusted with
    | done hstates' => simp only [hstates.scanner, hstates'.scanner]
  | failed hstates =>
    cases htrusted with
    | failed hstates' => rfl
  | stalled => cases h

/-- Parentheses that are tried as parameters twice, the second time where the outer ones have turned
out not to be parameters. -/
theorem parseFrom_ignoring_parentheses :
    ArrowsSettled .standard "(a = (b), c)" ∧
      parseFrom ((Context.ofText .standard "(a = (b), c)").recalling .ignored) .standard "a.ts"
        "(a = (b), c)" = parseAs .standard "a.ts" "(a = (b), c)" :=
  have hsettled : ArrowsSettled .standard "(a = (b), c)" := by decide +kernel
  ⟨hsettled, parseFrom_ignoring hsettled⟩

/-- The error of a reading. -/
def error? : Except ParseError SyntaxTree → Option ParseError
  | .error error => some error
  | .ok _ => none

theorem eq_error_of_error? {result : Except ParseError SyntaxTree} {error : ParseError}
    (h : error? result = some error) : result = .error error := by
  cases result with
  | error other => exact congrArg Except.error (Option.some.inj h)
  | ok tree => cases h

/-- In the middle of a conditional expression an arrow function with a type of its result has to be
followed by a colon, and inside parentheses it has not. Here the outer parentheses are tried as
parameters first, in the middle of the condition, and with them the arrow function inside. When
the parentheses are read as what they are, the arrow function is not tried again. -/
theorem parseAs_gives_up_arrow :
    ¬ ArrowsSettled .standard "a ? (x = (b) : c => d) : e" ∧
    (∃ tree, parseFrom ((Context.ofText .standard "a ? (x = (b) : c => d) : e").recalling .ignored)
        .standard "a.ts" "a ? (x = (b) : c => d) : e" = .ok tree ∧
      ((tree.erase {}).tree.text == "a ? (x = (b) => d) : e") = true) ∧
    parseAs .standard "a.ts" "a ? (x = (b) : c => d) : e" =
      .error ⟨13, ⟨1, 14⟩, "')' expected, found ':'."⟩ :=
  ⟨by decide +kernel, exists_checked (by decide +kernel), eq_error_of_error? (by decide +kernel)⟩

end Untype.SyntaxTree
