-- What the parsers of expressions are made of.
import Untype.Proofs.Anatomy.Types

namespace Untype.Grammar

open Untype.Node Untype.Grammar.Parser

attribute [local simp] NodeKind.HasShape NodeKind.isUnary NodeKind.isOperand isOperand_of_isUnary

variable {text : Source} {r : Rules} {g : Level} {i j : Nat} {pre : Scanner → Prop}
variable {good : Node → Prop} {async optionalChain certain : Bool} {s : Scanner} {strength : Nat}
  {left first owner : Node} {front : List Node}

/-! ## Arguments and templates -/

theorem enclosedAssignment_yields :
    (enclosedAssignment r).Yields text r g.top inside i pre :=
  .within (fun _ => ⟨rfl, rfl, fun _ => rfl, fun _ => rfl⟩) (inner_yields rfl)

theorem argument_yields : (argument r).Yields text r g.top inside i pre := by
  refine .ifTokenIs ?_ enclosedAssignment_yields
  refine .eatAt rfl fun dots hdots => ?_
  refine .bind_of enclosedAssignment_yields fun value hvalue => ?_
  exact .done (by simp [*])

theorem argumentList_made : (argumentList r).Made text r g i pre Always fun nodes k _ =>
    (AllFit text (inside g.depth) i nodes ∧
      ∃ front closing, nodes = front ++ [closing] ∧ closing.isToken .closeParen) ∧
      stopOf i nodes = k := by
  refine .expect rfl fun opening hopening => ?_
  refine .bind_of (commaList_yields fun _ => argument_yields) fun arguments harguments => ?_
  refine .expect rfl fun closing hclosing => ?_
  exact .done ⟨⟨by simp [*], _, _, rfl, hclosing.2.2⟩, by simp⟩

/-- The node is an expression that no binary operator holds together, or a leaf. -/
@[simp]
abbrev IsUnary (node : Node) : Prop := node.isUnary

/-- The node is an expression, or a leaf. -/
@[simp]
abbrev IsOperand (node : Node) : Prop := node.isOperand

theorem eat_unary (h : Avoids pre) : eat.YieldsSuch text r g inside i pre IsUnary :=
  (eat_leaf h).allowing fun _ _ _ => And.imp_left (And.imp_right isUnary_of_isLeaf)

theorem identifier_unary : identifier.YieldsSuch text r g inside i pre IsUnary :=
  identifier_token.allowing fun _ _ _ => And.imp_left (And.imp_right fun h => isUnary_of_isLeaf h.1)

theorem template_such : (template r).YieldsSuch text r g inside i pre IsUnary := by
  refine .ifTokenIs (eat_unary (.at rfl)) ?_
  refine .expect rfl fun head hhead => ?_
  refine .bind_of
    (templateSpans_yields ⟨by simp, by simp, fun _ _ => trivial⟩ fun _ => inner_yields rfl)
    fun spans hspans => ?_
  exact .done (by simp [*])

theorem expressionTypeArguments_such : (expressionTypeArguments r).YieldsSuch text r g
    inside i pre (·.isKind .typeArguments) := by
  refine .first_of typeArguments_such fun arguments harguments => ?_
  exact .ifAsk (.done ⟨harguments, rfl⟩) .fail

/-! ## Primary expressions -/

theorem parenthesized_such (h : Avoids pre) :
    (parenthesized r).YieldsSuch text r g around i pre IsUnary := by
  refine .eat h fun opening hopening => ?_
  refine .bind_of (.within (fun _ => ⟨rfl, rfl, fun _ => rfl, fun _ => rfl⟩) (inner_yields rfl))
    fun value hvalue => ?_
  refine .expect rfl fun closing hclosing => ?_
  exact .done ⟨⟨fits_guarded (by simp [*]) (by simp) (by decide) hopening.2, rfl⟩, by simp⟩

theorem arrayLiteral_such (h : Avoids pre) :
    (arrayLiteral r).YieldsSuch text r g around i pre IsUnary := by
  refine .eat h fun opening hopening => ?_
  refine .bind_of (sparseList_yields fun _ => argument_yields) fun elements helements => ?_
  refine .expect rfl fun closing hclosing => ?_
  exact .done ⟨⟨fits_guarded (by simp [*]) (by simp) (by decide) hopening.2, rfl⟩, by simp⟩

theorem objectProperty_yields : (objectProperty r).Yields text r g around i pre := by
  refine .bind_of (eatIf_yields fun s h hkind => by simp [hkind] at h) fun async hasync => ?_
  refine .bind_of (optional_yields rfl) fun star hstar => .ask fun mayBeShort => ?_
  refine .first_of propertyName_yields fun name hname => ?_
  refine .bind_of (optional_yields rfl) fun question hquestion => .ask fun signed => ?_
  split
  · refine .bind_of signatureAndBody_yields fun rest hrest => ?_
    exact .done (by simp [*])
  · refine .ask fun short => ?_
    split
    · refine .ifTokenIs ?_ (.done (by simp [*]))
      refine .eatAt rfl fun equals hequals => ?_
      refine .bind_of enclosedAssignment_yields fun value hvalue => ?_
      exact .done (by simp [*])
    · refine .expect rfl fun colon hcolon => ?_
      refine .bind_of enclosedAssignment_yields fun value hvalue => ?_
      exact .done (by simp [*])

theorem objectElement_yields : (objectElement r).Yields text r g around i pre := by
  refine .ifTokenIs ?_ (.ifAsk ?_ objectProperty_yields)
  · refine .eatAt rfl fun dots hdots => ?_
    refine .bind_of enclosedAssignment_yields fun value hvalue => ?_
    exact .done (by simp [*])
  · refine .tokenIs fun found => ?_
    refine .eat (.of_ask avoids_isAccessorStart) fun word hword => ?_
    refine .bind_of propertyName_yields fun name hname => ?_
    refine .bind_of signatureAndBody_yields fun rest hrest => ?_
    refine .done ?_
    split <;> simp [*]

theorem objectLiteral_such (h : Avoids pre) :
    (objectLiteral r).YieldsSuch text r g around i pre IsUnary := by
  refine .eat h fun opening hopening => ?_
  refine .bind_of (commaList_yields fun _ => (nested_yields objectElement_yields.anywhere))
    fun elements helements => ?_
  refine .expect rfl fun closing hclosing => ?_
  exact .done ⟨⟨fits_guarded (by simp [*]) (by simp) (by decide) hopening.2, rfl⟩, by simp⟩

theorem functionExpression_such :
    (functionExpression r).YieldsSuch text r g around i pre IsUnary := by
  refine .bind_of (optional_each rfl) fun async hasync => ?_
  refine .expect rfl fun word hword => ?_
  refine .bind_of (optional_yields rfl) fun star hstar => ?_
  refine .bind_of (parseIf_yields identifier_yields) fun name hname => ?_
  refine .bind_of signatureAndBody_yields fun rest hrest => ?_
  have hstart := isLeaf_head (fun node hnode => (hasync.2 node hnode).1) hword.2.1
  exact .done (by simp [*])

theorem classExpression_such :
    (classExpression r).YieldsSuch text r g around i pre IsUnary :=
  .bind_of decorators_each fun decorators hdecorators => classLike_such rfl ⟨hdecorators.1, rfl⟩
    fun word rest hword hlast => ⟨⟨⟨decorators, word, rest, rfl, hword.2, hdecorators.2⟩,
      hlast⟩, rfl⟩

theorem metaProperty_such (h : Avoids pre) :
    metaProperty.YieldsSuch text r g inside i pre IsUnary := by
  refine .eat h fun word hword => ?_
  refine .expect rfl fun dot hdot => ?_
  refine .bind_of identifierName_yields fun name hname => ?_
  exact .done (by simp [*])

/-! ## Members and calls -/

theorem elementAccess_such {dots : List Node} (howner : owner.isUnary)
    (hfront : FitTo text (around g.depth) i j (owner :: dots)) :
    (elementAccess r (owner :: dots)).GivesSuch text r g around i j pre Always IsUnary := by
  refine .expect rfl fun opening hopening => ?_
  refine .bind_of (.within (fun _ => ⟨rfl, rfl, fun _ => rfl, fun _ => rfl⟩) (inner_yields rfl))
    fun key hkey => ?_
  refine .expect rfl fun closing hclosing => ?_
  exact .done (by simp_all)

theorem memberStep_such
    (howner : owner.Fits text (around g.depth) i ∧ IsUnary owner) :
    (memberStep r optionalChain owner).YieldsStep text r g around i owner.span.stop pre
      IsUnary := by
  refine .askKnown fun s => ?_
  split
  · rename_i hdot
    refine .eat (fun t ht hkind => ?_) fun dot hdot => ?_
    · obtain rfl : t = s := ht.2
      simp [isOptionalMember, hkind] at hdot
    · refine .ifTokenIs ?_ ?_
      · exact .bind_of (elementAccess_such howner.2 (by simp [*])) fun access haccess =>
          .again ⟨haccess, rfl⟩
      · refine .bind_of identifierName_yields fun name hname => ?_
        exact .again (by simp [*])
  · split
    · rename_i hkind
      split
      · exact .finish ⟨howner, rfl⟩
      · refine .eat (fun t ht => ?_) fun mark hmark => .again (by simp [*])
        obtain rfl : t = s := ht.2
        simp [hkind]
    · refine .ground (fun _ _ => rfl) fun c _ => ?_
      split
      · exact .finish ⟨howner, rfl⟩
      · exact .first_of (elementAccess_such howner.2 (by simp [*])) fun access haccess =>
          .again ⟨haccess, rfl⟩
    iterate 2
      refine .first_of template_such fun text htext => ?_
      exact .again (by simp [*])
    · refine .orElse (.try expressionTypeArguments_such) (fun arguments harguments => ?_) ?_
      · exact .again (by simp [*])
      · exact .finish ⟨howner, rfl⟩
    · exact .finish ⟨howner, rfl⟩

theorem members_such
    (hfirst : first.Fits text (around g.depth) i ∧ IsUnary first) :
    (members r optionalChain first).GivesSuch text r g around i first.span.stop pre Perhaps
      IsUnary :=
  .steps hfirst fun _ howner => memberStep_such howner

theorem exists_callFront {callee : Node}
    (h : callee.Fits text (around g.depth) i ∧ IsUnary callee) :
    ∃ operand rest, (if callee.isKind .instantiationExpression then callee.children else [callee]) =
      operand :: rest ∧ IsOperand operand ∧ FitTo text (around g.depth) i callee.span.stop
        (operand :: rest) := by
  split
  · rename_i hkind
    obtain ⟨-, hchildren⟩ := h.1.children hkind rfl
    obtain ⟨span, marks, nodes, rfl⟩ := exists_of_isKind hkind
    obtain ⟨operand, arguments, rfl, hoperand, -⟩ := h.1.regular.branch.1 (by decide)
    exact ⟨operand, [arguments], rfl, hoperand, hchildren⟩
  · exact ⟨callee, [], rfl, isOperand_of_isUnary h.2, by simp [h]⟩

theorem calls_such (hfirst : first.Fits text (around g.depth) i ∧ IsUnary first) :
    (calls r first).GivesSuch text r g around i first.span.stop pre Perhaps IsUnary := by
  refine .steps hfirst fun callee hcallee => ?_
  refine .bind_of (members_such hcallee) fun callee hcallee => .ifTokenIs ?_ (.ifTokenIs ?_ ?_)
  · obtain ⟨operand, rest, heq, hoperand, hfront, hstop⟩ := exists_callFront hcallee
    rw [heq]
    refine .first_of argumentList_made fun arguments harguments => ?_
    obtain ⟨harguments, front, closing, rfl, hclosing⟩ := harguments
    refine .again ⟨⟨(fits_group (by simp)).2 ⟨by simp, by simp_all, operand, rest ++ front,
      closing, by simp, hoperand, hclosing⟩, by simp⟩, by simp⟩
  · refine .eatAt rfl fun dot hdot => ?_
    refine .bind_of (parseIf_yields expressionTypeArguments_such.plain) fun types htypes => ?_
    refine .ifTokenIs ?_ .failExpected
    refine .bind_of argumentList_made fun arguments harguments => ?_
    obtain ⟨harguments, front, closing, rfl, hclosing⟩ := harguments
    exact .again ⟨⟨(fits_group (by simp)).2 ⟨by simp, by simp_all, callee,
      dot :: types ++ front, closing, by simp, isOperand_of_isUnary hcallee.2, hclosing⟩, by simp⟩,
      by simp⟩
  · exact .finish ⟨hcallee, rfl⟩

/-- The target of `new` lies at the same depth: it has the room that the whole has. -/
theorem newExpression_such (h : Avoids pre) :
    (newExpression r).YieldsSuch text r g around i pre IsUnary := by
  refine .ifAsk (.outwardSuch (metaProperty_such fun s hs => h s hs.1)) ?_
  refine .eat h fun word hword => ?_
  refine .bind_of (outer_such rfl) fun target htarget => ?_
  refine .bind_of (members_such htarget) fun target htarget => .tokenIs fun found => ?_
  obtain ⟨operand, rest, heq, -, hfront, hstop⟩ := exists_callFront htarget
  rw [heq]
  extract_lets afterArguments
  have hafterArguments : ∀ arguments, AllFit text (inside g.depth) target.span.stop arguments →
      (afterArguments arguments).GivesSuch text r g.top around i
        (stopOf target.span.stop arguments) (fun _ => True) Perhaps IsUnary :=
    fun arguments harguments => .done (by simp_all)
  split
  · exact .bind_of argumentList_made fun arguments h => hafterArguments arguments h.1
  · exact hafterArguments [] allFit_nil

theorem rescanSlash_kind (h : s.kind = .slash ∨ s.kind = .slashEquals) :
    s.rescanSlash.kind ≠ .endOfFile := by
  unfold Scanner.rescanSlash
  rw [if_pos (by simpa using h)]
  dsimp only
  split <;> simp [Scanner.reread]

theorem regularExpression_such (hrank : 0 < g.rank)
    (h : ∀ s, pre s → s.kind = .slash ∨ s.kind = .slashEquals) :
    (do moveBy (·.rescanSlash); eat : Parser Node).YieldsSuch text r g inside i pre IsUnary :=
  .moveBy (·.kind ≠ .endOfFile) hrank .slash (fun s hs => rescanSlash_kind (h s hs))
    (eat_unary fun _ => id)

theorem primary_such (hrank : 0 < g.rank) :
    (primary r).YieldsSuch text r g around i pre IsUnary := by
  refine .kind fun kind => ?_
  split
  iterate 10 exact .outwardSuch (eat_unary (.at rfl))
  · exact .outwardSuch template_such
  · exact parenthesized_such (.at rfl)
  · exact arrayLiteral_such (.at rfl)
  · exact objectLiteral_such (.at rfl)
  · exact functionExpression_such
  iterate 2 exact classExpression_such
  · exact newExpression_such (.at rfl)
  · exact .outwardSuch (regularExpression_such hrank fun _ => .inl)
  · exact .outwardSuch (regularExpression_such hrank fun _ => .inr)
  · exact .ifAsk functionExpression_such (.outwardSuch identifier_unary)
  · exact .ifAsk (.outwardSuch identifier_unary) .fail

theorem leftHandSide_such (hrank : Production.primary.rank < g.rank) :
    (leftHandSide r).YieldsSuch text r g around i pre IsUnary := by
  refine .kind fun kind => ?_
  extract_lets afterFirst
  have hafterFirst : ∀ first, first.Fits text (around g.depth) i ∧ IsUnary first →
      (afterFirst first).GivesSuch text r g.top around i first.span.stop (fun _ => True)
        Perhaps IsUnary :=
    fun first hfirst => calls_such hfirst
  have hprimary {pre : Scanner → Prop} : (do
      let base ← r .primary
      let first ← members r true base
      afterFirst first : Parser Node).YieldsSuch text r g around i pre IsUnary :=
    .first_of (early_such hrank rfl) fun base hbase =>
      .bind_of (members_such hbase) hafterFirst
  split
  · refine .ifAsk ?_ (.ifAsk ?_ hprimary)
    · exact .first_of (.outwardSuch (eat_unary fun s h => Avoids.at rfl s h.1)) hafterFirst
    · exact .first_of (.outwardSuch (metaProperty_such fun s h => Avoids.at rfl s h.1))
        hafterFirst
  · exact .first_of (.outwardSuch (eat_unary (.at rfl))) hafterFirst
  · exact hprimary

/-! ## Operators -/

theorem update_such (hrank : Production.leftHandSide.rank < g.rank) :
    (update r).YieldsSuch text r g around i pre IsUnary := by
  refine .ifAsk ?_ (.ground (fun _ _ => rfl) fun c _ => .tokenIs fun element => ?_)
  · refine .eat (.of_ask (avoids_isOneOf (by decide))) fun sign hsign => ?_
    refine .bind_of (outer_such rfl) fun operand hoperand => ?_
    exact .done (by simp [*])
  · split
    · exact .outwardSuch (early_such (Nat.lt_trans Nat.one_lt_two hrank) rfl)
    · have hside : (r .leftHandSide).YieldsSuch text r g around i pre IsUnary :=
        early_such hrank rfl
      refine .first_of hside fun operand hoperand => .ifAsk ?_ (.done ⟨hoperand, rfl⟩)
      refine .eat (.of_ask fun s h => ?_) fun sign hsign => .done (by simp [*])
      exact avoids_isOneOf (by decide) s (Bool.and_eq_true_iff.1 h).1

theorem assertedType_such : (assertedType r).YieldsSuch text r g.top inside i pre IsType :=
  .ifTokenIs (tokenType_such rfl ⟨by simp, by simp, fun _ _ => trivial⟩ rfl) (inner_such rfl)

theorem typeAssertion_such :
    (typeAssertion r).YieldsSuch text r g inside i (At .lessThan) IsUnary := by
  refine .eatAt rfl fun opening hopening => ?_
  refine .bind_of assertedType_such fun type htype => ?_
  refine .expect rfl fun closing hclosing => ?_
  refine .bind_of (inner_such rfl) fun operand hoperand => ?_
  exact .done (by simp [*])

theorem unaryKind?_plain {kind : NodeKind}
    (h : unaryKind? async s = some kind) :
    (kind ∉ NodeKind.guarded ∧ kind ∉ NodeKind.familial ∧ kind.isUnary) ∧
      ∀ operator rest, operator.isLeaf → kind.HasShape text (operator :: rest) := by
  unfold unaryKind? at h
  split at h
  case h_8 =>
    split at h
    · cases h
      exact ⟨by simp, fun _ _ hleaf => hleaf⟩
    · cases h
  all_goals cases h
  all_goals exact ⟨by simp, fun _ _ hleaf => hleaf⟩

theorem simpleUnary_such (hrank : Production.leftHandSide.rank < g.rank) :
    (simpleUnary r).YieldsSuch text r g around i pre IsUnary := by
  refine .ground (fun _ _ => rfl) fun c _ => .askKnown fun found => ?_
  split
  · rename_i kind
    refine .given (fun s h => @unaryKind?_plain text _ _ _ h.2)
      fun ⟨⟨hguarded, hfamilial, hunary⟩, hshape⟩ => ?_
    refine .eat (fun s h hend => ?_) fun operator hoperator => ?_
    · have hnone := h.2
      simp [unaryKind?, hend] at hnone
    · refine .bind_of (inner_such rfl) fun operand hoperand => .done ⟨⟨?_, hunary⟩, by simp⟩
      exact (fits_group ⟨hguarded, hfamilial⟩).2 ⟨by simp, by simp [*], hshape _ _ hoperator.2⟩
  · exact .ifTokenIs (.outwardSuch typeAssertion_such) (update_such hrank)

theorem unary_such (hrank : Production.leftHandSide.rank < g.rank) :
    (unary r).YieldsSuch text r g inside i pre IsUnary := by
  refine nested_such (.anywhereSuch (.ground (fun _ _ => rfl) fun c _ =>
    .ifAsk (update_such hrank) ?_))
  refine .first_of (simpleUnary_such hrank) fun operand hoperand => ?_
  exact .ifTokenIs .fail (.done ⟨hoperand, rfl⟩)

/-- What the loop over operators keeps up. -/
abbrev Climbing (text : Source) (g : Level) (i strength : Nat) (node : Node) (k : Nat)
    (s : Scanner) : Prop :=
  (node.Fits text (inside g.depth) i ∧ node.span.stop = k) ∧
    Climbs strength g.noIn node s.rescanGreater

/-- What it comes to: what follows does not go on with the expression. -/
abbrev Climbed (text : Source) (g : Level) (i strength : Nat) (node : Node) (k : Nat)
    (s : Scanner) : Prop :=
  Climbing text g i strength node k s ∧ ¬GoesOn strength g.noIn s.rescanGreater

section Operators

variable {s : Scanner} (hleft : left.Fits text (inside g.depth) i)
  (hgoes : GoesOn strength g.noIn s) (hclimbs : Climbs strength g.noIn left s)

include hleft hgoes hclimbs

/-- After `as` or `satisfies`, a type goes on with the expression. -/
theorem assertion_climbs (hpre : Avoids pre)
    (hword : s.kind = .asKeyword ∨ s.kind = .satisfiesKeyword) :
    (do
      let word ← eat
      if s.kind == .asKeyword then
        let type ← assertedType r
        return .again (.group .asExpression [left, word, type])
      else
        let type ← r .type
        return .again (.group .satisfiesExpression [left, word, type]) :
      Parser (Turn Node Node)).Made text r g.top left.span.stop pre Turn.Advances
      (Turn.Leaves (Climbing text g i strength) (Climbed text g i strength)) := by
  refine .eat hpre fun word hword' => ?_
  split
  · refine .bind_of assertedType_such fun type htype => .answer id fun t _ => ?_
    obtain ⟨hshape, hclimbs'⟩ := @GoesOn.assertion text _ _ _ _ word _ hgoes hclimbs type
      .asExpression hword (.inl rfl)
    exact ⟨⟨(fits_group (by simp)).2 ⟨by simp, by simp [*], hshape⟩, by simp⟩, hclimbs'⟩
  · refine .bind_of (inner_such rfl) fun type htype => .answer id fun t _ => ?_
    obtain ⟨hshape, hclimbs'⟩ := @GoesOn.assertion text _ _ _ _ word _ hgoes hclimbs type
      .satisfiesExpression hword (.inr rfl)
    exact ⟨⟨(fits_group (by simp)).2 ⟨by simp, by simp [*], hshape⟩, by simp⟩, hclimbs'⟩

/-- After another operator, what binds tighter goes on with the expression. -/
theorem operation_climbs (hpre : Avoids pre) (hknown : ∀ t, pre t → t = s) :
    (do
      let sign ← eat
      let right ← r (.binary (bindingStrength s.kind))
      return .again (.group .binaryExpression [left, sign, right]) :
      Parser (Turn Node Node)).Made text r g.top left.span.stop pre Turn.Advances
      (Turn.Leaves (Climbing text g i strength) (Climbed text g i strength)) := by
  have hsign : eat.Made text r g.top left.span.stop pre Always fun sign k _ =>
      (sign.Fits text (inside g.depth) left.span.stop ∧ sign.token? = some s.kind) ∧
        sign.span.stop = k := by
    refine (eat_taken hpre).allowing ?_
    rintro _ _ _ ⟨⟨hfits, hstop⟩, t, -, ht, rfl, -⟩
    obtain rfl := hknown t ht
    exact ⟨⟨hfits _, rfl⟩, hstop⟩
  refine .first_of hsign fun sign hsign => ?_
  have hright : (r (.binary (bindingStrength s.kind))).Made text r g.top sign.span.stop
      (fun _ => True) Always fun right k t => (right.Fits text (inside g.depth) sign.span.stop ∧
        right.span.stop = k) ∧ Tight (bindingStrength s.kind) right ∧
          ¬GoesOn (bindingStrength s.kind) g.noIn t.rescanGreater :=
    .rule (Production.rank_lt _) fun _ _ _ _ _ _ hnode hbrings => ⟨⟨hnode, rfl⟩, hbrings.2 _ rfl⟩
  refine .bind hright fun right k => .answer id fun t ht => ?_
  obtain ⟨⟨hright, rfl⟩, htight, hstops⟩ := ht
  obtain ⟨hshape, hclimbs'⟩ := @GoesOn.binary text _ _ _ _ _ _ _ hgoes hclimbs hsign.2 htight hstops
  refine ⟨⟨(fits_group (by simp)).2 ⟨by simp, ?_, hshape⟩, by simp⟩, hclimbs'⟩
  simp [hleft, hsign, hright]

end Operators

theorem binaryStep_climbs :
    (binaryStep r strength left).Made text r g.top j
      (Climbing text g i strength left j) Turn.Advances
      (Turn.Leaves (Climbing text g i strength) (Climbed text g i strength)) := by
  refine .given (fun _ h => h.1) fun ⟨hleft, hstop⟩ => ?_
  subst hstop
  -- The scanner after the operator is put together: nothing more is put to it.
  refine .moveBy (fun s => Climbs strength g.noIn left s ∧ s.rescanGreater = s) Level.IsTop.pos
    .greater (fun s h => ⟨h.2, rescanGreater_rescanGreater s⟩) (.askKnown fun s => ?_)
  have hfact : ∀ t, (Climbs strength g.noIn left t ∧ t.rescanGreater = t) ∧ t = s →
      Climbs strength g.noIn left s ∧ s.rescanGreater = s := by
    rintro t ⟨h, rfl⟩
    exact h
  refine .given hfact fun ⟨hclimbs, hsame⟩ => ?_
  have hstays : ¬GoesOn strength g.noIn s → ∀ t, (Climbs strength g.noIn left t ∧
      t.rescanGreater = t) ∧ t = s → Climbed text g i strength left left.span.stop t := by
    rintro hstops t ⟨-, rfl⟩
    rw [Climbed, Climbing, hsame]
    exact ⟨⟨⟨hleft, rfl⟩, hclimbs⟩, hstops⟩
  extract_lets operator
  split
  · rename_i hweak
    refine .finishAt (hstays fun hgoes => ?_)
    simp only [operator, hgoes.strong, Bool.not_true, Bool.or_false, beq_iff_eq] at hweak
    exact absurd hweak (Nat.ne_of_gt hgoes.binds)
  rename_i hstrong
  simp only [operator, Bool.or_eq_true, beq_iff_eq, Bool.not_eq_true', not_or, Bool.not_eq_false]
    at hstrong
  obtain ⟨hbinds, hstrong⟩ := hstrong
  have havoids : Avoids fun t => (Climbs strength g.noIn left t ∧ t.rescanGreater = t) ∧ t = s := by
    rintro t ⟨-, rfl⟩ hkind
    exact hbinds (by simp [hkind, bindingStrength])
  refine .ground (fun _ _ => rfl) fun c hc => ?_
  split
  · rename_i hin
    refine .finishAt (hstays fun hgoes => hgoes.allowed ?_)
    simpa [operator, hc] using hin
  rename_i hallowed
  have hallowed : ¬(s.kind = .inKeyword ∧ g.noIn) := by simpa [operator, hc] using hallowed
  split
  · rename_i hword
    have hword : s.kind = .asKeyword ∨ s.kind = .satisfiesKeyword := by simpa [operator] using hword
    split
    · rename_i hbreak
      refine .finishAt (hstays fun hgoes => ?_)
      rw [hgoes.onLine hword] at hbreak
      cases hbreak
    · rename_i hline
      exact assertion_climbs hleft ⟨Nat.pos_of_ne_zero hbinds, hstrong, hallowed,
        fun _ => by simpa using hline⟩ hclimbs havoids hword
  · rename_i hword
    refine operation_climbs hleft ⟨Nat.pos_of_ne_zero hbinds, hstrong, hallowed,
      fun hassertion => ?_⟩ hclimbs havoids fun t ht => ht.2
    exact absurd hassertion (by simpa [operator] using hword)

theorem binary_climbs (hrank : Production.leftHandSide.rank < g.rank) :
    (binary r strength).Made text r g i pre Always
      (Climbed text g i strength) := by
  refine .first_of (unary_such hrank) fun first hfirst => ?_
  refine .loop (Climbing text g i strength) (fun s _ => ⟨⟨hfirst.1, rfl⟩, ?_⟩)
    fun left k => binaryStep_climbs
  exact .of_isUnary hfirst.2 strength g.noIn _

/-! ## Arrow functions -/

/-- The body of an arrow function may be one itself only one level deeper. -/
theorem arrowRest_made
    (h : ∀ arrow body, AllFit text (around g.depth) j [arrow, body] → body.isArrowBody →
      good (group .arrowFunction (front ++ [arrow, body]))) :
    (arrowRest r async front).Made text r g j pre Always fun node k _ =>
      good node ∧ node.span.stop = k := by
  refine .expect rfl fun arrow harrow => .askKnown fun found => ?_
  extract_lets afterBody
  have hafterBody : ∀ body, body.Fits text (around g.depth) arrow.span.stop ∧ body.isArrowBody →
      (afterBody body).Made text r g.top body.span.stop (fun _ => True) Perhaps
        fun node k _ => good node ∧ node.span.stop = k :=
    fun body hbody => .done ⟨h arrow body (by simp [*]) hbody.2, by simp⟩
  cases found with
  | true =>
    refine .bind_of (functionBody_such.allowing fun _ _ _ => And.imp_left ?_) hafterBody
    exact And.imp_right fun h => by simp [isArrowBody, h.1]
  | false =>
    have hbody : (r .assignment).YieldsSuch text r g.top inside arrow.span.stop
        (fun s => True ∧ (s.kind == .openBrace) = false) (·.isArrowBody) := by
      refine .rule (Production.rank_lt _) fun start node _ _ hstart hleads hnode hbrings =>
        ⟨⟨hnode, ?_⟩, rfl⟩
      have hbrace := hleads.not_isToken rfl (beq_eq_false_iff_ne.1 hstart.2)
      have hoperand : node.isOperand := hbrings.1
      simp [isArrowBody, hoperand, hbrace]
    exact .bind_of (.within (fun _ => ⟨rfl, rfl, id, fun _ => rfl⟩) hbody.outwardSuch) hafterBody

theorem arrowRest_such (hfront : FitTo text (around g.depth) i j front)
    (hhead : ∃ word types parameters rest, front = word ++ types ++ parameters :: rest ∧
      HasArrowShape text word types parameters) :
    (arrowRest r async front).GivesSuch text r g outside i j pre Always IsOperand := by
  obtain ⟨word, types, parameters, rest, rfl, hshape⟩ := hhead
  refine arrowRest_made fun arrow body hnodes hbody => ⟨fits_arrowFunction ?_ (by simp) ?_, by simp⟩
  · exact allFit_append.2 ⟨hfront.1, hfront.2 ▸ hnodes⟩
  · exact ⟨⟨word, types, parameters, rest ++ [arrow, body], by simp, hshape⟩,
      by simp [List.getLast?_cons, hbody]⟩

/-- The word before an arrow function, on the line of what follows. -/
abbrev IsAsyncWord (text : Source) (word : Node) : Prop :=
  word.isToken .asyncKeyword ∧ word.Unbroken text

theorem eat_asyncWord (h : ∀ s, pre s → s.kind = .asyncKeyword ∧ s.scan.afterLineBreak = false) :
    eat.YieldsSuch text r g inside i pre (IsAsyncWord text) := by
  refine (eat_taken fun s hs hend => ?_).allowing ?_
  · have hkind := (h s hs).1
    rw [hend] at hkind
    cases hkind
  · rintro _ _ _ ⟨⟨hfits, hstop⟩, s, hreached, hs, rfl, -⟩
    obtain ⟨hkind, hline⟩ := h s hs
    refine ⟨⟨hfits _, ?_, s, hreached.reached, rfl, hline⟩, hstop⟩
    rw [hkind]
    exact (isToken_leafOf _ s).2

theorem parseIf_once {question : Scanner → Bool} {p : Parser Node}
    (hp : p.YieldsSuch text r g inside i (fun s => pre s ∧ question s) good) :
    (parseIf question p).Made text r g i pre Perhaps fun nodes k _ =>
      (AllFit text (inside g.depth) i nodes ∧ (nodes = [] ∨ ∃ node, nodes = [node] ∧ good node)) ∧
        stopOf i nodes = k :=
  .ifAsk (.bind_of hp fun _ hnode => .done (by simp [hnode])) (.done (by simp))

theorem parenthesizedArrow_made {isWord : Node → Prop}
    (hword : eat.YieldsSuch text r g inside i
      (fun s => pre s ∧ (s.kind == .asyncKeyword)) isWord)
    (hgood : ∀ word types parameters rest,
      AllFit text (around g.depth) i (word ++ types ++ parameters :: rest) →
      (word = [] ∨ ∃ async, word = [async] ∧ isWord async) →
      (types = [] ∨ ∃ list, types = [list] ∧ list.isKind .typeParameters) →
      parameters.isKind .parameterList ∧ rest.getLast?.any isArrowBody →
      good (group .arrowFunction (word ++ types ++ parameters :: rest))) :
    (parenthesizedArrow r certain).Made text r g i pre Always fun node k _ =>
      good node ∧ node.span.stop = k := by
  refine .ground (fun _ _ => rfl) fun c _ => ?_
  refine .bind_of (parseIf_once hword) fun word hword => ?_
  refine .bind_of (parseIf_once typeParameters_such) fun types htypes => ?_
  refine .first_of (.within (fun _ => ⟨rfl, rfl, id, fun _ => rfl⟩) parameterList_such)
    fun parameters hparameters => ?_
  refine .bind_of (parseIf_yields returnMark_such.plain) fun result hresult => .ask fun goesOn => ?_
  split
  · exact .failExpected
  · have hrest : ∀ arrow body, AllFit text (around g.depth) (stopOf parameters.span.stop result)
        [arrow, body] → body.isArrowBody → good (group .arrowFunction
          (word ++ types ++ [parameters] ++ result ++ [arrow, body])) := by
      intro arrow body hnodes hbody
      have hall := hgood word types parameters (result ++ [arrow, body]) (by simp_all) hword.2
        htypes.2 ⟨hparameters.2, by simp [hbody]⟩
      simpa using hall
    refine .bind_of (arrowRest_made hrest) fun arrow harrow => .tokenIs fun colon => ?_
    split
    · exact .failExpected
    · exact .done ⟨harrow, rfl⟩

theorem parenthesizedArrow_such
    (hline : ∀ s, pre s → s.kind = .asyncKeyword → s.scan.afterLineBreak = false) :
    (parenthesizedArrow r certain).YieldsSuch text r g outside i pre IsOperand := by
  refine parenthesizedArrow_made (eat_asyncWord fun s hs => ?_)
    fun word types parameters rest hnodes hword htypes hparameters => ⟨?_, by simp⟩
  · have hkind := beq_iff_eq.1 hs.2
    exact ⟨hkind, hline s hs.1 hkind⟩
  · refine fits_arrowFunction hnodes (by simp)
      ⟨⟨word, types, parameters, rest, rfl, hword, htypes, .inl hparameters.1⟩, ?_⟩
    obtain ⟨body, hbody, hgood⟩ := (Option.any_eq_true _ _).1 hparameters.2
    simp [List.getLast?_append, List.getLast?_cons, hbody, hgood]

theorem unbroken_of_arrowVerdict {jsx : Bool} (h : s.arrowVerdict jsx ≠ .no)
    (hkind : s.kind = .asyncKeyword) : s.scan.afterLineBreak = false := by
  rw [Bool.eq_false_iff]
  intro hbreak
  exact h (by simp [Scanner.arrowVerdict, hkind, hbreak])

theorem parenthesizedArrow?_such : (parenthesizedArrow? r).Made text r g i pre
    (fun found => found.isSome) fun found k _ =>
      Found (fun node => node.Fits text (outside g.depth) i ∧ IsOperand node)
        (·.span.stop) i found k := by
  refine .ground (fun _ _ => rfl) fun c _ => .askKnown fun verdict => ?_
  have hline : verdict ≠ .no → ∀ s, pre s ∧ s.arrowVerdict c.jsx = verdict →
      s.kind = .asyncKeyword → s.scan.afterLineBreak = false :=
    fun hne s hs => unbroken_of_arrowVerdict (hs.2 ▸ hne)
  split
  · exact .answer (by simp) fun _ _ => rfl
  · exact .first_of (parenthesizedArrow_such (hline (by decide))) fun arrow harrow =>
      .done ⟨harrow, rfl⟩
  · exact .ask fun start => .attemptArrow (parenthesizedArrow_such (hline (by decide)))
      (fun _ _ _ => id) fun _ _ => rfl

theorem asyncArrow_such (h : ∀ s, pre s → s.startsAsyncArrow) :
    (asyncArrow r).YieldsSuch text r g outside i pre IsOperand := by
  have hword : eat.YieldsSuch text r g inside i pre (IsAsyncWord text) := by
    refine eat_asyncWord fun s hs => ?_
    have hstart := h s hs
    simp only [Scanner.startsAsyncArrow, Bool.and_eq_true, beq_iff_eq, Bool.not_eq_true'] at hstart
    exact hstart.1.1
  refine .first_of hword fun word hword => ?_
  refine .bind_of identifier_token fun name hname => ?_
  refine .loosely (arrowRest_such (by simp [*]) ⟨[word], [], _, [], rfl, ?_⟩)
  exact ⟨.inr ⟨word, rfl, hword.2⟩, .inl rfl, .inr ⟨name, rfl, hname.2.2⟩⟩

/-! ## Assignments -/

/-- The operand of `yield` stands on its line. -/
theorem yieldExpression_such :
    (yieldExpression r).YieldsSuch text r g inside i (At .yieldKeyword) IsOperand := by
  refine .eatWord rfl fun word hword => .ifAsk ?_ (.done ?_)
  · refine .given (fun s hs => hs.1 ?_) fun hline => ?_
    · simpa using (Bool.and_eq_true_iff.1 hs.2).1
    refine .bind_of (optional_each rfl) fun star hstar => ?_
    refine .bind_of (inner_such rfl) fun value hvalue => .done ?_
    have hshape : NodeKind.HasShape text .yieldExpression (word :: star ++ [value]) :=
      ⟨word, star, [value], rfl, hword.2.2, fun part hpart => (hstar.2 part hpart).2,
        .inr ⟨value, rfl, hvalue.2, hline⟩⟩
    exact ⟨⟨(fits_group (by simp)).2 ⟨by simp, by simp [*], hshape⟩, by simp⟩, by simp⟩
  · have hshape : NodeKind.HasShape text .yieldExpression [word] :=
      ⟨word, [], [], rfl, hword.2.2, by simp, .inl rfl⟩
    exact ⟨⟨(fits_group (by simp)).2 ⟨by simp, by simp [*], hshape⟩, by simp⟩, by simp⟩

theorem conditional_such {condition : Node}
    (hcondition : condition.Fits text (inside g.depth) i ∧ IsOperand condition) :
    (conditional r condition).GivesSuch text r g inside i condition.span.stop pre Perhaps
      IsOperand := by
  refine .ifTokenIs ?_ (.done ⟨hcondition, rfl⟩)
  refine .eatAt rfl fun question hquestion => ?_
  refine .bind_of (.within (fun _ => ⟨rfl, rfl, fun _ => rfl, fun _ => rfl⟩) (inner_yields rfl))
    fun yes hyes => ?_
  refine .expect rfl fun colon hcolon => ?_
  refine .bind_of (inner_yields rfl) fun no hno => ?_
  exact .done (by simp [*])

theorem fits_binary {sign right : Node} {kind : TokenKind}
    (hkind : kind = .comma ∨ kind.isAssignmentOperator)
    (hleft : left.Fits text (inside g.depth) i ∧ IsOperand left)
    (hsign : sign.Fits text (inside g.depth) left.span.stop ∧ IsToken kind sign)
    (hright : right.Fits text (inside g.depth) sign.span.stop) :
    (group .binaryExpression [left, sign, right]).Fits text (inside g.depth) i :=
  (fits_group (by simp)).2 ⟨by simp, by simp [hleft, hsign, hright], left, sign, right, kind,
    rfl, hleft.2, by simpa [isToken] using hsign.2.2, .inr hkind⟩

theorem assignmentRest_such (hleft : left.Fits text (inside g.depth) i ∧ IsOperand left) :
    (assignmentRest r left).GivesSuch text r g outside i left.span.stop pre Perhaps
      IsOperand := by
  refine .kind fun kind => ?_
  split
  · rename_i harrow
    refine .loosely (arrowRest_such (by simp [*]) ⟨[], [], _, [], rfl, ?_⟩)
    exact ⟨.inl rfl, .inl rfl, .inr ⟨left, rfl, (Bool.and_eq_true_iff.1 harrow).1⟩⟩
  · split
    · rename_i hassigns
      have hassigns := (Bool.and_eq_true_iff.1 hassigns).1
      have hend : kind != .endOfFile := bne_iff_ne.2 fun h => by rw [h] at hassigns; cases hassigns
      refine .eatAt hend fun sign hsign => ?_
      refine .bind_of (inner_yields rfl) fun right hright => .done ⟨⟨?_, by simp⟩, by simp⟩
      exact fits_outside (fits_around (fits_binary (.inr hassigns) hleft hsign hright))
    · exact (conditional_such hleft).outwardSuch.anywhereSuch

theorem assignment_such (hrank : (Production.binary 0).rank < g.rank) :
    (assignment r).YieldsSuch text r g outside i pre IsOperand := by
  refine .ground (fun _ _ => rfl) fun c _ => .ifAsk ?_ ?_
  · refine .anywhereSuch (.outwardSuch (yieldExpression_such.knowing fun s hs => ?_))
    exact beq_iff_eq.1 (Bool.and_eq_true_iff.1 hs.2).1
  · refine .orElse parenthesizedArrow?_such (fun arrow harrow => .done ⟨harrow, rfl⟩) ?_
    refine .ifAsk (asyncArrow_such fun s hs => hs.2) ?_
    exact .first_of (early_such hrank rfl) fun left hleft => assignmentRest_such hleft

theorem expression_such (hrank : Production.assignment.rank < g.rank) :
    (expression r).YieldsSuch text r g inside i pre IsOperand := by
  refine .within (fun _ => ⟨rfl, rfl, id, fun _ => rfl⟩) ?_
  refine .first_of (early_such hrank rfl) fun first hfirst => ?_
  refine .steps hfirst fun left hleft => .ifTokenIs ?_ (.finish ⟨hleft, rfl⟩)
  refine .eatAt rfl fun comma hcomma => ?_
  refine .bind_of (inner_yields rfl) fun right hright => .again ⟨⟨?_, by simp⟩, by simp⟩
  exact fits_binary (.inl rfl) hleft hcomma hright

end Untype.Grammar
