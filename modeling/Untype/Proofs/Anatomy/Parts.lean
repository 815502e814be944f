-- What the parsers of the grammar are made of. Each step is a rule with what
-- holds of the scanner before and after it; what the rules have in common
-- holds of every parser that they make.
import Untype.Proofs.Anatomy.Nesting

namespace Untype.Grammar

open Untype.Node

/-! ## Ranks -/

/-- Before it takes a token, a production comes only to productions of lower rank. -/
def Production.rank : Production → Nat
  | .primary | .bindingName | .type | .typeOperator | .jsxElement _ => 1
  | .leftHandSide => 2
  | .binary _ | .unaryOperand => 3
  | .assignment => 4
  | .expression => 5
  | .statement => 6

/-- More than the rank of any production. -/
def topRank : Nat := 7

theorem Production.rank_lt (production : Production) : production.rank < topRank := by
  cases production <;> simp [rank, topRank]

/-- Where a parser stands: it comes to productions below the rank until it takes a token, and reads
at the depth, where `in` ends an expression or not. -/
structure Level where
  rank : Nat
  depth : Nat
  noIn : Bool

namespace Level

/-- After a token was taken, any production may come. -/
@[simp]
abbrev top (g : Level) : Level := { g with rank := topRank }

/-- No token is taken yet, and no production comes before one is. -/
@[simp]
abbrev still (g : Level) : Level := { g with rank := 0 }

/-- A token was taken. -/
class IsTop (g : Level) : Prop where
  rank : g.rank = topRank

instance {depth : Nat} {noIn : Bool} : IsTop ⟨topRank, depth, noIn⟩ := ⟨rfl⟩

instance {g : Level} {depth : Nat} {noIn : Bool} [hg : g.IsTop] :
    IsTop ⟨g.rank, depth, noIn⟩ := ⟨hg.rank⟩

theorem IsTop.pos {g : Level} [hg : g.IsTop] : 0 < g.rank := hg.rank ▸ Nat.succ_pos _

@[simp]
abbrev deeper (g : Level) : Level := { g with depth := g.depth + 1 }

end Level

/-- What a production has room for at each depth. -/
def Production.limit : Production → Nat → NodeKind → Nat
  | .leftHandSide | .primary | .typeOperator => around
  | _ => inside

/-- What a statement is: it is one by its kind and by its start. -/
def Stands (node : Node) : Prop := node.isStatement ∧ node.isLeaf = false

@[simp]
theorem stands_group {kind : NodeKind} {nodes : List Node} : Stands (group kind nodes) ↔
    kind.isStatement ∧ nodes.head?.any (startsStatement kind) := by
  simp [Stands]

/-- What a production is by its label. -/
abbrev Production.Such (production : Production) (node : Node) : Prop :=
  match production with
  | .statement => Stands node
  | .type => node.isTypePart = false
  | .primary | .leftHandSide | .unaryOperand | .jsxElement _ => node.isUnary
  | .expression | .assignment | .binary _ => node.isOperand
  | .bindingName | .typeOperator => True

/-- What a production brings. An expression of some strength is tight, and no operator follows that
goes on with it. -/
def Production.Brings (production : Production) (noIn : Bool) (node : Node) (s : Scanner) : Prop :=
  production.Such node ∧ ∀ strength, production = .binary strength →
    Tight strength node ∧ ¬GoesOn strength noIn s.rescanGreater

namespace Parser

/-! ## Rules -/

/-- An answer that is only given after a token was taken. -/
abbrev Always {α : Type} (_ : α) : Prop := True

/-- An answer that may be given before a token was taken. -/
abbrev Perhaps {α : Type} (_ : α) : Prop := False

/-- The turn took something, if the loop goes on. -/
def Turn.Advances {α β : Type} : Turn α β → Prop
  | .again _ => True
  | .finish _ => False

/-- A turn keeps the invariant, or ends the loop with what it promises. -/
def Turn.Leaves {α β : Type} (inv : α → Nat → Scanner → Prop) (post : β → Nat → Scanner → Prop) :
    Turn α β → Nat → Scanner → Prop
  | .again value => inv value
  | .finish result => post result

/-- The end of the text is not yet reached. -/
def Avoids (pre : Scanner → Prop) : Prop := ∀ s, pre s → s.kind ≠ .endOfFile

/-- The change leaves depth and budget as they are, and does not look at what is made of arrow
functions that failed. Where `noIn` says whether `in` ends an expression, `noIn'` does so after
it. -/
def Context.Allows (change : Context → Context) (noIn noIn' : Bool) : Prop :=
  ∀ c, (change c).depth = c.depth ∧ (change c).budget = c.budget ∧
    (c.disallowIn = noIn → (change c).disallowIn = noIn') ∧
    ∀ trust, change { c with trust } = { change c with trust }

/-- The parser is made of the steps of the grammar at this level; with the rank 0 it also leaves its
first token as it is. After an answer that `took` something a token was taken. It starts at the
offset `j` of the text; where `pre` holds of the scanner, an answer leaves `post` at the offset it
came to. What it means that arrow functions failed shows only in `attemptArrow`: nothing else looks
at it. -/
inductive Made (text : Source) (r : Rules) : {α : Type} → Level → (j : Nat) → (Scanner → Prop) →
    Parser α → (α → Prop) → (α → Nat → Scanner → Prop) → Prop where
  | answer : ¬ took value → (∀ s, pre s → post value j s) →
    Made text r g j pre (pure value) took post
  | chain : Made text r g j pre p took' mid →
    (∀ value k, took' value → Made text r g.top k (mid value k) (next value) Perhaps post) →
    (∀ value k, ¬ took' value → Made text r g k (mid value k) (next value) took post) →
    Made text r g j pre (p >>= next) took post
  | look : (∀ s, pre s → post (question s) j s) → Made text r g j pre (ask question) Perhaps post
  | ground : (∀ c trust, next { c with trust } = next c) →
    (∀ c : Context, c.disallowIn = g.noIn → Made text r g j pre (next c) took post) →
    Made text r g j pre (context >>= next) took post
  | fail : Made text r g j pre (fail cause) took post
  | take : Avoids pre → (∀ s : Scanner, text.Reaches s → s.full.offset = j → pre s →
      post (leafOf s.kind s) s.here.offset s.scan) → Made text r g j pre eat Always post
  | takeAs {kind : TokenKind} : Avoids pre →
    (∀ s : Scanner, text.Reaches s → s.full.offset = j → pre s →
      post (leafOf kind s) s.here.offset s.scan) → Made text r g j pre (eatAs kind) Always post
  | takeJsx : Avoids pre → (∀ s : Scanner, text.Reaches s → s.full.offset = j → pre s →
      post (leafOf s.kind s) s.here.offset s.scanJsx) → Made text r g j pre eatJsx Always post
  | reread : 0 < g.rank → Scanner.Rereads advance → (∀ s, pre s → post () j (advance s)) →
    Made text r g j pre (moveBy advance) Perhaps post
  | within {noIn' : Bool} : Context.Allows change g.noIn noIn' →
    Made text r { g with noIn := noIn' } j pre p took post →
    Made text r g j pre (within change p) took post
  | nested : (g.depth < maxDepth → Made text r g.deeper j pre p took post) →
    Made text r g j pre (nested p) took post
  | attempt {p : Parser α} : Made text r g.still j pre p Always mid →
    (∀ value k s, mid value k s → post (some value) k s) →
    (∀ s, pre s → post none j s) → Made text r g j pre (attempt p) (fun found => found.isSome) post
  | attemptArrow {p : Parser α} : Made text r g.still j pre p Always mid →
    (∀ value k s, mid value k s → post (some value) k s) → (∀ s, pre s → post none j s) →
    Made text r g j pre (attemptArrow offset p) (fun found => found.isSome) post
  | loop (inv : α → Nat → Scanner → Prop) : (∀ s, pre s → inv first j s) →
    (∀ value k, Made text r g k (inv value k) (turn value) Turn.Advances (Turn.Leaves inv post)) →
    Made text r g j pre (loopFrom first turn) Perhaps post
  | rule {production : Production} : production.rank < g.rank →
    (∀ start node s, text.Reaches start → pre start → Leads start node.firstLeaf →
      node.Fits text (production.limit g.depth) j → production.Brings g.noIn node s →
      post node node.span.stop s) → Made text r g j pre (r production) Always post
  | weaken : Made text r g j pre' p took' post' → (∀ s, pre s → pre' s) →
    (∀ value, took value → took' value) → (∀ value k s, post' value k s → post value k s) →
    Made text r g j pre p took post
  | given {fact : Prop} : (∀ s, pre s → fact) → (fact → Made text r g j pre p took post) →
    Made text r g j pre p took post

section Answers

variable (text : Source) (r : Rules) (g : Level) (limit : Nat → NodeKind → Nat)
  (i j : Nat) (pre : Scanner → Prop)

/-- The parser starts at the offset `j` and answers with a node from the offset `i` to where it
came, which fits there. -/
abbrev Gives (took : Node → Prop) (p : Parser Node) : Prop :=
  p.Made text r g j pre took fun node k _ =>
    node.Fits text (limit g.depth) i ∧ node.span.stop = k

/-- The parser takes a token before it answers with the node that it read. -/
abbrev Yields (p : Parser Node) : Prop := p.Gives text r g limit i i pre Always

/-- The same with a node of some sort. -/
abbrev GivesSuch (took : Node → Prop) (good : Node → Prop) (p : Parser Node) : Prop :=
  p.Made text r g j pre took fun node k _ =>
    (node.Fits text (limit g.depth) i ∧ good node) ∧ node.span.stop = k

abbrev YieldsSuch (good : Node → Prop) (p : Parser Node) : Prop :=
  p.GivesSuch text r g limit i i pre Always good

/-- The parser answers with the nodes that it read, which fit there. -/
abbrev YieldsAll (p : Parser (List Node)) : Prop :=
  p.Made text r g i pre Perhaps fun nodes k _ => FitTo text (limit g.depth) i k nodes

/-- The same with nodes of some sort. -/
abbrev YieldsEach (good : Node → Prop) (p : Parser (List Node)) : Prop :=
  p.Made text r g i pre Perhaps fun nodes k _ =>
    (AllFit text (limit g.depth) i nodes ∧ ∀ node ∈ nodes, good node) ∧ stopOf i nodes = k

/-- The parser takes a token before it answers with the nodes that it read, of which there is one at
least. -/
abbrev YieldsSome (p : Parser (List Node)) : Prop :=
  p.Made text r g i pre Always fun nodes k _ =>
    (nodes ≠ [] ∧ AllFit text (limit g.depth) i nodes) ∧ stopOf i nodes = k

end Answers

/-- The node is a token of this kind. -/
@[simp]
abbrev IsToken (kind : TokenKind) (node : Node) : Prop :=
  node.isLeaf ∧ node.isToken kind

/-- The current token is of this kind. -/
def At (kind : TokenKind) (s : Scanner) : Prop := s.kind = kind

theorem Avoids.at {kind : TokenKind} (h : kind != .endOfFile) : Avoids (At kind) :=
  fun _ hat => hat ▸ bne_iff_ne.1 h

section Derived

variable {α β : Type} {text : Source} {r : Rules} {g : Level} {i j : Nat}
  {limit : Nat → NodeKind → Nat} {pre : Scanner → Prop} {p : Parser α} {next : α → Parser β}
  {took : β → Prop} {good : α → Prop} {stop : α → Nat} {post : β → Nat → Scanner → Prop}
variable {took' : α → Prop} {mid inv : α → Nat → Scanner → Prop} {q : Parser β}
  {question go : Scanner → Bool} {item : Parser Node} {seen : List Node} {close : TokenKind}
  {production : Production}

theorem Avoids.of_ask (h : ∀ s, question s → s.kind ≠ .endOfFile) :
    Avoids fun s => pre s ∧ question s :=
  fun s hs => h s hs.2

theorem Avoids.of_token {kind : TokenKind} (h : kind != .endOfFile) :
    Avoids fun s => pre s ∧ (s.kind == kind) :=
  .of_ask fun _ hkind => beq_iff_eq.1 hkind ▸ bne_iff_ne.1 h

/-! ## Steps one after the other -/

theorem Made.knowing {pre' : Scanner → Prop} {p : Parser β}
    (h : p.Made text r g j pre' took post) (hpre : ∀ s, pre s → pre' s) :
    p.Made text r g j pre took post :=
  h.weaken hpre (fun _ => id) fun _ _ _ => id

theorem Made.loosely {p : Parser β} (h : p.Made text r g j pre took post) :
    p.Made text r g j pre Perhaps post :=
  h.weaken (fun _ => id) (fun _ => False.elim) fun _ _ _ => id

theorem Made.allowing {post' : β → Nat → Scanner → Prop} {p : Parser β}
    (h : p.Made text r g j pre took post')
    (hpost : ∀ value k s, post' value k s → post value k s) :
    p.Made text r g j pre took post :=
  h.weaken (fun _ => id) (fun _ => id) hpost

theorem Made.done {good : β → Nat → Prop} {value : β} (h : good value j) :
    (Pure.pure value : Parser β).Made text r g j pre Perhaps
      fun value k _ => good value k :=
  .answer id fun _ _ => h

theorem Made.bind (hp : p.Made text r g j pre took' mid)
    (hnext : ∀ value k, (next value).Made text r g k (mid value k) took post) :
    (p >>= next).Made text r g j pre took post :=
  .chain hp.loosely (fun _ _ h => h.elim) fun value k _ => hnext value k

theorem Made.first (hp : p.Made text r g j pre Always mid)
    (hnext : ∀ value k, (next value).Made text r g.top k (mid value k) Perhaps post) :
    (p >>= next).Made text r g j pre took post :=
  .chain hp (fun value k _ => hnext value k) fun _ _ h => absurd trivial h

theorem Made.from_stop {known : Scanner → Prop} {value : α} {k : Nat}
    (hnext : good value → q.Made text r g (stop value) (fun _ => True) took post)
    (hknown : ∀ s, known s → good value ∧ stop value = k) :
    q.Made text r g k known took post := by
  refine .given hknown fun ⟨hgood, hstop⟩ => ?_
  subst hstop
  exact (hnext hgood).knowing fun _ _ => trivial

theorem Made.bind_of
    (hp : p.Made text r g j pre took' fun value k _ => good value ∧ stop value = k)
    (hnext : ∀ value, good value →
      (next value).Made text r g (stop value) (fun _ => True) took post) :
    (p >>= next).Made text r g j pre took post :=
  .bind hp fun value _ => .from_stop (hnext value) fun _ => id

theorem Made.first_of
    (hp : p.Made text r g j pre Always fun value k _ => good value ∧ stop value = k)
    (hnext : ∀ value, good value →
      (next value).Made text r g.top (stop value) (fun _ => True) Perhaps post) :
    (p >>= next).Made text r g j pre took post :=
  .first hp fun value _ => .from_stop (hnext value) fun _ => id

/-- What was found is good and ends at the offset, or nothing was found and nothing read. -/
def Found (good : α → Prop) (stop : α → Nat) (j : Nat) : Option α → Nat → Prop
  | some value, k => good value ∧ stop value = k
  | none, k => j = k

theorem Made.orElse {p : Parser (Option α)} {next : Option α → Parser β}
    (hp : p.Made text r g j pre (fun found => found.isSome)
      fun found k _ => Found good stop j found k)
    (hsome : ∀ value, good value →
      (next (some value)).Made text r g.top (stop value) (fun _ => True) Perhaps post)
    (hnone : (next none).Made text r g j (fun _ => True) took post) :
    (p >>= next).Made text r g j pre took post := by
  refine .chain hp (fun found k hfound => ?_) fun found k hfound => ?_
  · obtain ⟨value, rfl⟩ := Option.isSome_iff_exists.1 hfound
    exact .from_stop (hsome value) fun _ => id
  · obtain rfl : found = none := by simpa using hfound
    exact .given (fun _ => id) fun hsame => by
      cases hsame
      exact hnone.knowing fun _ _ => trivial

/-! ## Questions -/

/-- The answer to a question is known in what follows. -/
theorem Made.askKnown {question : Scanner → α}
    (h : ∀ value, (next value).Made text r g j (fun s => pre s ∧ question s = value) took
      post) :
    (Parser.ask question >>= next).Made text r g j pre took post := by
  have hlook : (Parser.ask question).Made text r g j pre Perhaps
      fun value k s => j = k ∧ pre s ∧ question s = value := .look fun _ hs => ⟨rfl, hs, rfl⟩
  refine .bind hlook fun value k => .given (fun _ hs => hs.1) fun hsame => ?_
  cases hsame
  exact (h value).knowing fun _ hs => hs.2

theorem Made.ask {question : Scanner → α}
    (h : ∀ value, (next value).Made text r g j pre took post) :
    (Parser.ask question >>= next).Made text r g j pre took post :=
  .askKnown fun value => (h value).knowing fun _ hs => hs.1

theorem Made.kind {next : TokenKind → Parser β}
    (h : ∀ kind, (next kind).Made text r g j (At kind) took post) :
    (Parser.kind >>= next).Made text r g j pre took post :=
  .askKnown fun kind => (h kind).knowing fun _ hs => hs.2

variable {kind : TokenKind}

theorem Made.tokenIs {next : Bool → Parser β}
    (h : ∀ value, (next value).Made text r g j pre took post) :
    (Parser.tokenIs kind >>= next).Made text r g j pre took post :=
  .ask h

theorem Made.ifAsk {p : Parser β}
    (hyes : p.Made text r g j (fun s => pre s ∧ question s) took post)
    (hno : q.Made text r g j pre took post) :
    (Parser.ask question >>= fun found => if found then p else q).Made text r g j pre took
      post := by
  refine .askKnown fun found => ?_
  cases found with
  | true => exact hyes
  | false => exact hno.knowing fun _ h => h.1

theorem Made.ifTokenIs {p : Parser β}
    (hyes : p.Made text r g j (At kind) took post)
    (hno : q.Made text r g j pre took post) :
    (Parser.tokenIs kind >>= fun found => if found then p else q).Made text r g j pre took
      post :=
  .ifAsk (hyes.knowing fun _ h => beq_iff_eq.1 h.2) hno

theorem Made.failExpected {what : String} :
    (Parser.failExpected what : Parser β).Made text r g j pre took post := by
  refine .ask fun s => ?_
  split <;> exact .fail

theorem Made.try (h : p.Made text r g.still j pre Always fun value k _ => good value ∧
    stop value = k) :
    (Parser.attempt p).Made text r g j pre (fun found => found.isSome)
      fun found k _ => Found good stop j found k :=
  .attempt h (fun _ _ _ => id) fun _ _ => rfl

theorem Made.plain {p : Parser Node} {took good : Node → Prop}
    (h : p.GivesSuch text r g limit i j pre took good) :
    p.Gives text r g limit i j pre took :=
  h.allowing fun _ _ _ => And.imp_left And.left

/-! ## Tokens -/

theorem isToken_leafOf (kind : TokenKind) (s : Scanner) : IsToken kind (leafOf kind s) :=
  ⟨rfl, by simp [leafOf, isToken, token?]⟩

theorem eat_taken (h : Avoids pre) : eat.Made text r g i pre Always fun node k t =>
    ((∀ limit, node.Fits text limit i) ∧ node.span.stop = k) ∧
      ∃ s, text.Reaches s ∧ pre s ∧ node = leafOf s.kind s ∧ t = s.scan := by
  refine .take h fun s hreached hoffset hs => ?_
  subst hoffset
  exact ⟨⟨fun _ => fits_leafOf (h s hs) hreached (.inl rfl), rfl⟩, s, hreached, hs, rfl, rfl⟩

theorem eat_good {good : Node → Prop}
    (h : ∀ s, pre s → s.kind ≠ .endOfFile ∧ good (leafOf s.kind s)) :
    eat.YieldsSuch text r g limit i pre good := by
  refine (eat_taken fun s hs => (h s hs).1).allowing ?_
  rintro _ _ _ ⟨⟨hfits, hstop⟩, s, -, hs, rfl, -⟩
  exact ⟨⟨hfits _, (h s hs).2⟩, hstop⟩

theorem eat_leaf (h : Avoids pre) :
    eat.YieldsSuch text r g limit i pre (·.isLeaf) :=
  eat_good fun s hs => ⟨h s hs, rfl⟩

theorem eat_yields (h : Avoids pre) : eat.Yields text r g limit i pre := (eat_leaf h).plain

theorem eat_token (h : kind != .endOfFile) :
    eat.YieldsSuch text r g limit i (At kind) (IsToken kind) := by
  refine eat_good ?_
  rintro s rfl
  exact ⟨bne_iff_ne.1 h, isToken_leafOf _ s⟩

theorem Made.eat {next : Node → Parser β} (h : Avoids pre)
    (hnext : ∀ node : Node, node.Fits text (inside g.depth) j ∧ node.isLeaf →
      (next node).Made text r g.top node.span.stop (fun _ => True) Perhaps post) :
    (Parser.eat >>= next).Made text r g j pre took post :=
  .first_of (eat_leaf h) hnext

section Expected

variable {next : Node → Parser β} (h : kind != .endOfFile)
  (hnext : ∀ node : Node, node.Fits text (inside g.depth) j ∧ IsToken kind node →
    (next node).Made text r g.top node.span.stop (fun _ => True) Perhaps post)

include h hnext

theorem Made.eatAt : (Parser.eat >>= next).Made text r g j (At kind) took post :=
  .first_of (eat_token h) hnext

theorem Made.expect : (Parser.expect kind >>= next).Made text r g j pre took post :=
  .first_of (.ifTokenIs (eat_token h) .failExpected) hnext

end Expected

theorem Made.eatWord {next : Node → Parser β} (h : kind != .endOfFile)
    (hnext : ∀ node : Node, node.Fits text (inside g.depth) j ∧ IsToken kind node →
      (next node).Made text r g.top node.span.stop
        (fun t => t.afterLineBreak = false → node.Unbroken text) Perhaps post) :
    (Parser.eat >>= next).Made text r g j (At kind) took post := by
  have heat : Parser.eat.Made text r g j (At kind) Always fun node k t =>
      ((node.Fits text (inside g.depth) j ∧ IsToken kind node) ∧ node.span.stop = k) ∧
        (t.afterLineBreak = false → node.Unbroken text) := by
    refine (eat_taken (.at h)).allowing ?_
    rintro _ _ _ ⟨⟨hfits, hstop⟩, s, hreached, rfl, rfl, rfl⟩
    exact ⟨⟨⟨hfits _, isToken_leafOf _ s⟩, hstop⟩, fun hline => ⟨s, hreached.reached, rfl, hline⟩⟩
  refine .first heat fun node k => .given (fun _ hs => hs.1) fun hnode => ?_
  obtain ⟨hnode, rfl⟩ := hnode
  exact (hnext node hnode).knowing fun _ hs => hs.2

theorem eatAs_token (h : ∀ s, question s → s.kind.isIdentifierOrKeyword) :
    (eatAs .identifier).YieldsSuch text r g inside i
      (fun s => pre s ∧ question s) (IsToken .identifier) := by
  refine .takeAs (fun s hs hkind => ?_) fun s hreached hoffset hs => ?_
  · have hword := h s hs.2
    rw [hkind] at hword
    cases hword
  · subst hoffset
    exact ⟨⟨fits_leafOf (by decide) hreached (.inr ⟨rfl, h s hs.2⟩), isToken_leafOf _ s⟩, rfl⟩

theorem eatJsx_yields (h : Avoids pre) : eatJsx.Yields text r g inside i pre := by
  refine .takeJsx h fun s hreached hoffset hs => ?_
  subst hoffset
  exact ⟨fits_leafOf (h s hs) hreached (.inl rfl), rfl⟩

theorem Made.moveBy {advance : Scanner → Scanner} {next : Unit → Parser β}
    (known : Scanner → Prop) (hrank : 0 < g.rank) (h : Scanner.Rereads advance)
    (hknown : ∀ s, pre s → known (advance s))
    (hnext : (next ()).Made text r g j known took post) :
    (Parser.moveBy advance >>= next).Made text r g j pre took post := by
  have hmove : (Parser.moveBy advance).Made text r g j pre Perhaps
      fun _ k s => j = k ∧ known s := .reread hrank h fun s hs => ⟨rfl, hknown s hs⟩
  refine .bind hmove fun _ k => .given (fun _ hs => hs.1) fun hsame => ?_
  cases hsame
  exact hnext.knowing fun _ hs => hs.2

theorem parseIf_each {p : Parser Node} {good : Node → Prop}
    (hp : p.YieldsSuch text r g limit i (fun s => pre s ∧ question s) good) :
    (parseIf question p).YieldsEach text r g limit i pre good :=
  .ifAsk (.bind_of hp fun _ hnode => .done (by simp [hnode])) (.done (by simp))

theorem eatIf_each {good : Node → Prop}
    (h : ∀ s, question s → s.kind ≠ .endOfFile ∧ good (leafOf s.kind s)) :
    (eatIf question).YieldsEach text r g inside i pre good :=
  parseIf_each (eat_good fun s hs => h s hs.2)

theorem eatIf_yields (h : ∀ s, question s → s.kind ≠ .endOfFile) :
    (eatIf question).YieldsAll text r g inside i pre :=
  .ifAsk (.eat (.of_ask h) fun _ hnode => .done (by simp [hnode])) (.done (by simp))

theorem optional_each (h : kind != .endOfFile) :
    (optional kind).YieldsEach text r g inside i pre (IsToken kind) := by
  refine eatIf_each fun s hkind => ?_
  obtain rfl : s.kind = kind := beq_iff_eq.1 hkind
  exact ⟨bne_iff_ne.1 h, isToken_leafOf _ s⟩

theorem optional_yields (h : kind != .endOfFile) :
    (optional kind).YieldsAll text r g inside i pre :=
  eatIf_yields fun _ hkind => beq_iff_eq.1 hkind ▸ bne_iff_ne.1 h

theorem parseIf_yields {p : Parser Node}
    (hp : p.Yields text r g limit i (fun s => pre s ∧ question s)) :
    (parseIf question p).YieldsAll text r g limit i pre :=
  .ifAsk (.bind_of hp fun _ hnode => .done (by simp [hnode])) (.done (by simp))

theorem semicolon_each :
    semicolon.YieldsEach text r g inside i pre (IsToken .semicolon) := by
  refine .askKnown fun s => ?_
  split
  · rename_i hkind
    have hkind : At .semicolon s := beq_iff_eq.1 hkind
    refine .knowing ?_ fun t (ht : pre t ∧ t = s) => (ht.2 ▸ hkind : At .semicolon t)
    exact .eatAt rfl fun node hnode => .done (by simp [hnode])
  · split
    · exact .done (by simp)
    · exact .failExpected

theorem semicolon_yields : semicolon.YieldsAll text r g inside i pre :=
  semicolon_each.allowing fun _ _ _ => And.imp_left And.left

/-! ## Loops -/

/-- The loop keeps something of its state, which ends at an offset. -/
def Kept (good : α → Prop) (stop : α → Nat) (value : α) (k : Nat) (_ : Scanner) : Prop :=
  good value ∧ stop value = k

theorem Made.loopOf {first : α} {turn : α → Parser (Turn α β)} (good : α → Prop) (stop : α → Nat)
    (hfirst : good first ∧ stop first = j)
    (hturn : ∀ value, good value → (turn value).Made text r g (stop value) (fun _ => True)
      Turn.Advances (Turn.Leaves (Kept good stop) post)) :
    (loopFrom first turn).Made text r g j pre Perhaps post :=
  .loop (Kept good stop) (fun _ _ => hfirst) fun value _ => .from_stop (hturn value) fun _ => id

theorem Made.again {value : α} (h : good value ∧ stop value = j) :
    (Pure.pure (Turn.again value) : Parser (Turn α β)).Made text r g j pre Perhaps
      (Turn.Leaves (Kept good stop) post) :=
  .answer id fun _ _ => h

theorem Made.finishAt {result : β} (h : ∀ s, pre s → post result j s) :
    (Pure.pure (Turn.finish result) : Parser (Turn α β)).Made text r g j pre Turn.Advances
      (Turn.Leaves inv post) :=
  .answer id h

theorem Made.finish {good : β → Nat → Prop} {result : β} (h : good result j) :
    (Pure.pure (Turn.finish result) : Parser (Turn α β)).Made text r g j pre Turn.Advances
      (Turn.Leaves inv fun result k _ => good result k) :=
  .finishAt fun _ _ => h

/-- One more step behind a node of some sort that starts at the offset `i`: it takes a token, or
answers with the node. -/
abbrev YieldsStep (text : Source) (r : Rules) (g : Level)
    (limit : Nat → NodeKind → Nat) (i j : Nat) (pre : Scanner → Prop) (good : Node → Prop)
    (p : Parser (Turn Node Node)) : Prop :=
  p.Made text r g j pre Turn.Advances
    (Turn.Leaves (Kept (fun node => node.Fits text (limit g.depth) i ∧ good node) (·.span.stop))
      fun node k _ => (node.Fits text (limit g.depth) i ∧ good node) ∧ node.span.stop = k)

theorem Made.steps {first : Node} {turn : Node → Parser (Turn Node Node)} {good : Node → Prop}
    (hfirst : first.Fits text (limit g.depth) i ∧ good first)
    (hturn : ∀ node : Node, node.Fits text (limit g.depth) i ∧ good node →
      (turn node).YieldsStep text r g limit i node.span.stop (fun _ => True) good) :
    (loopFrom first turn).GivesSuch text r g limit i first.span.stop pre Perhaps good :=
  .loopOf _ (·.span.stop) ⟨hfirst, rfl⟩ hturn

/-- A turn that gathers nodes, the last one first. -/
abbrev YieldsTurn (text : Source) (r : Rules) (g : Level)
    (limit : Nat → NodeKind → Nat)
    (i j : Nat) (pre : Scanner → Prop) (took : Turn (List Node) (List Node) → Prop)
    (p : Parser (Turn (List Node) (List Node))) : Prop :=
  p.Made text r g j pre took
    (Turn.Leaves (Kept (fun seen => AllFit text (limit g.depth) i seen.reverse)
      fun seen => stopOf i seen.reverse) fun nodes k _ => FitTo text (limit g.depth) i k nodes)

theorem Made.gather {first : List Node} {turn : List Node → Parser (Turn (List Node) (List Node))}
    (hfirst : FitTo text (limit g.depth) i j first.reverse)
    (hturn : ∀ seen : List Node, AllFit text (limit g.depth) i seen.reverse →
      (turn seen).YieldsTurn text r g limit i (stopOf i seen.reverse) (fun _ => True)
        Turn.Advances) :
    (loopFrom first turn).Made text r g j pre Perhaps fun nodes k _ =>
      FitTo text (limit g.depth) i k nodes :=
  .loopOf _ _ hfirst hturn

theorem manyUntil_each {stop : Scanner → Bool} {good : Node → Prop}
    (hitem : ∀ j, item.YieldsSuch text r g limit j (fun s => stop s = false) good) :
    (manyUntil stop item).YieldsEach text r g limit i pre good := by
  refine .loopOf (fun seen => AllFit text (limit g.depth) i seen.reverse ∧ ∀ node ∈ seen, good node)
    (fun seen => stopOf i seen.reverse) (by simp) fun seen hseen => .askKnown fun found => ?_
  cases found with
  | true => exact .finish (by simpa using hseen)
  | false =>
    refine .first_of ((hitem _).knowing fun _ h => h.2) fun node hnode => ?_
    exact .again ⟨⟨by simp [hnode, hseen], List.forall_mem_cons.2 ⟨hnode.2, hseen.2⟩⟩, by simp⟩

theorem manyUntil_yields {stop : Scanner → Bool}
    (hitem : ∀ j, item.Yields text r g limit j (fun s => stop s = false)) :
    (manyUntil stop item).YieldsAll text r g limit i pre :=
  Made.allowing (manyUntil_each fun j => (hitem j).allowing fun _ _ _ =>
    And.imp_left fun h => ⟨h, trivial⟩) fun _ _ _ => And.imp_left And.left

theorem manyWhile_each {good : Node → Prop}
    (hitem : ∀ j, item.YieldsSuch text r g limit j (fun s => go s) good) :
    (manyWhile go item).YieldsEach text r g limit i pre good :=
  manyUntil_each fun j => (hitem j).knowing fun _ h => by simpa using h

theorem manyWhile_yields
    (hitem : ∀ j, item.Yields text r g limit j (fun s => go s)) :
    (manyWhile go item).YieldsAll text r g limit i pre :=
  manyUntil_yields fun j => (hitem j).knowing fun _ h => by simpa using h

theorem manyWhile_eat_yields (h : ∀ s, go s → s.kind ≠ .endOfFile) :
    (manyWhile go eat).YieldsAll text r g inside i pre :=
  manyWhile_yields fun _ => eat_yields h

theorem comma_yields {took : Turn (List Node) (List Node) → Prop}
    (hseen : AllFit text (limit g.depth) i seen.reverse) :
    (do
      let comma ← eat
      return Turn.again (comma :: seen) : Parser (Turn (List Node) (List Node))).YieldsTurn text r
      g limit i (stopOf i seen.reverse) (At .comma) took := by
  have hcomma : eat.Yields text r g limit (stopOf i seen.reverse) (At .comma) :=
    eat_yields (.at rfl)
  exact .first_of hcomma fun comma hcomma => .again (by simp [hcomma, hseen])

section Lists

variable (hitem : ∀ j, item.Yields text r g limit j (fun _ => True))

include hitem

/-- An item, and a comma if it is there. -/
theorem item_then_comma_yields
    (hseen : AllFit text (limit g.depth) i seen.reverse) :
    (do
      let one ← item
      if ← tokenIs .comma then
        let comma ← eat
        return Turn.again (comma :: one :: seen)
      else
        return Turn.finish (one :: seen).reverse : Parser (Turn (List Node) (List Node))).YieldsTurn
      text r g limit i (stopOf i seen.reverse) (fun _ => True) Turn.Advances := by
  refine .first_of (hitem _) fun one hone => ?_
  have hseen : AllFit text (limit g.depth) i (one :: seen).reverse := by simp [hone, hseen]
  have hstop : stopOf i (one :: seen).reverse = one.span.stop := by simp
  rw [← hstop]
  exact .ifTokenIs (comma_yields hseen) (.loosely (.finish ⟨hseen, rfl⟩))

theorem commaList_yields :
    (commaList close item).YieldsAll text r g limit i pre := by
  refine .gather (by simp) fun seen hseen => .ifTokenIs ?_ ?_
  · exact .finish ⟨hseen, rfl⟩
  · exact item_then_comma_yields hitem hseen

theorem sparseList_yields :
    (sparseList close item).YieldsAll text r g limit i pre := by
  refine .gather (by simp) fun seen hseen => .ifTokenIs ?_ (.ifTokenIs ?_ ?_)
  · exact .finish ⟨hseen, rfl⟩
  · exact comma_yields hseen
  · exact item_then_comma_yields hitem hseen

theorem commaItems_yields :
    (commaItems item).YieldsAll text r g limit i pre :=
  .gather (by simp) fun _ hseen => item_then_comma_yields hitem hseen

end Lists

/-! ## Productions -/

theorem early_such (hrank : production.rank < g.rank) (hlimit : production.limit = limit) :
    (r production).YieldsSuch text r g limit i pre production.Such :=
  .rule hrank fun _ _ _ _ _ _ hnode hbrings => ⟨⟨hlimit ▸ hnode, hbrings.1⟩, rfl⟩

theorem inner_such [hg : g.IsTop] (hlimit : production.limit = inside) :
    (r production).YieldsSuch text r g inside i pre production.Such :=
  early_such (hg.rank ▸ production.rank_lt) hlimit

theorem inner_yields [g.IsTop] (hlimit : production.limit = inside) :
    (r production).Yields text r g inside i pre :=
  (inner_such hlimit).plain

theorem outer_such [hg : g.IsTop] (hlimit : production.limit = around) :
    (r production).YieldsSuch text r g around i pre production.Such :=
  early_such (hg.rank ▸ production.rank_lt) hlimit

section Rooms

variable {p : Parser Node} {took good : Node → Prop}

theorem Made.outward (h : p.Gives text r g inside i j pre took) :
    p.Gives text r g around i j pre took :=
  h.allowing fun _ _ _ => And.imp_left fits_around

theorem Made.outwardSuch (h : p.GivesSuch text r g inside i j pre took good) :
    p.GivesSuch text r g around i j pre took good :=
  h.allowing fun _ _ _ => And.imp_left (And.imp_left fits_around)

theorem Made.anywhere (h : p.Gives text r g around i j pre took) :
    p.Gives text r g outside i j pre took :=
  h.allowing fun _ _ _ => And.imp_left fits_outside

theorem Made.anywhereSuch (h : p.GivesSuch text r g around i j pre took good) :
    p.GivesSuch text r g outside i j pre took good :=
  h.allowing fun _ _ _ => And.imp_left (And.imp_left fits_outside)

theorem nested_yields (h : p.Yields text r g.deeper outside i pre) :
    (nested p).Yields text r g inside i pre :=
  .nested fun hdepth => h.allowing fun _ _ _ => And.imp_left (fits_inside hdepth)

theorem nested_such (h : p.YieldsSuch text r g.deeper outside i pre good) :
    (nested p).YieldsSuch text r g inside i pre good :=
  .nested fun hdepth => h.allowing fun _ _ _ => And.imp_left (And.imp_left (fits_inside hdepth))

end Rooms

end Derived

end Parser

end Untype.Grammar
