-- What the parsers of types and elements are made of.
import Untype.Proofs.Anatomy.Names

namespace Untype.Grammar

open Untype.Node Untype.Grammar.Parser

variable {s : Scanner} {kind : NodeKind} {inExpression : Bool}

attribute [local simp] NodeKind.HasShape NodeKind.isTypePart NodeKind.isUnary NodeKind.isOperand

variable {text : Source} {r : Rules} {g : Level} {i j : Nat} {pre : Scanner → Prop}

/-- What goes wherever it stands is no type by itself. -/
@[simp]
abbrev IsType (node : Node) : Prop := node.isTypePart = false

/-! ## References -/

theorem argumentsOnLine_yields : (argumentsOnLine r).YieldsAll text r g inside i pre :=
  parseIf_yields typeArguments_yields

theorem typeReference_such : (typeReference r).YieldsSuch text r g inside i pre IsType := by
  refine .first_of entityName_yields fun name hname => ?_
  refine .bind_of argumentsOnLine_yields fun arguments harguments => ?_
  exact .done (by simp [*])

theorem dottedNames_yields : (loopFrom [] fun seen => do
    if ← tokenIs .dot then
      let dot ← eat
      let name ← identifierName
      return Turn.again (seen ++ [dot, name])
    else
      return Turn.finish seen).YieldsAll text r g inside i pre := by
  refine .loopOf (AllFit text (inside g.depth) i) (stopOf i) (by simp) fun seen hseen => ?_
  refine .ifTokenIs ?_ (.finish ⟨hseen, rfl⟩)
  refine .eatAt rfl fun dot hdot => ?_
  refine .bind_of identifierName_yields fun name hname => ?_
  exact .again (by simp [*])

theorem importType_such {front : List Node} (hfront : FitTo text (inside g.depth) i j front) :
    (importType r front).GivesSuch text r g inside i j pre Always IsType := by
  refine .expect rfl fun word hword => ?_
  refine .expect rfl fun opening hopening => ?_
  refine .bind_of fullType_yields fun module hmodule => ?_
  refine .askKnown fun found => ?_
  extract_lets afterOptions
  have hafterOptions : ∀ options, AllFit text (inside g.depth) module.span.stop options →
      (afterOptions options).GivesSuch text r g.top inside i
        (stopOf module.span.stop options) (fun _ => True) Perhaps IsType := by
    intro options hoptions
    refine .expect rfl fun closing hclosing => ?_
    refine .bind_of dottedNames_yields fun names hnames => ?_
    refine .bind_of argumentsOnLine_yields fun arguments harguments => ?_
    exact .done (by simp [*])
  cases found with
  | true =>
    refine .eat (.of_token rfl) fun comma hcomma => .ifTokenIs ?_ ?_
    · exact (hafterOptions [comma] (by simp [*])).knowing fun _ _ => trivial
    · refine .bind_of (inner_yields rfl) fun value hvalue => ?_
      refine .bind_of (optional_yields rfl) fun last hlast => ?_
      exact hafterOptions (comma :: value :: last) (by simp [*])
  | false => exact (hafterOptions [] allFit_nil).knowing fun _ _ => trivial

theorem typeQuery_such (h : Avoids pre) :
    (typeQuery r).YieldsSuch text r g inside i pre IsType := by
  refine .eat h fun word hword => .ifTokenIs (.loosely (importType_such (by simp [*]))) ?_
  refine .bind_of entityName_yields fun name hname => ?_
  refine .bind_of argumentsOnLine_yields fun arguments harguments => ?_
  exact .done (by simp [*])

/-! ## Bracketed types -/

theorem rescanTemplate_kind (h : s.kind = .closeBrace) : s.rescanTemplate.kind ≠ .endOfFile := by
  rw [Scanner.rescanTemplate, if_pos (beq_iff_eq.2 h)]
  change (readTemplate false s.flags s.start).kind ≠ .endOfFile
  unfold readTemplate
  dsimp only
  split <;> simp

theorem templatePiece_yields : templatePiece.Made text r g.top i pre Always
    fun found k _ => found.1.Fits text (inside g.depth) i ∧ found.1.span.stop = k := by
  refine .ifTokenIs ?_ .failExpected
  refine .moveBy (·.kind ≠ .endOfFile) Level.IsTop.pos .template
    (fun _ h => rescanTemplate_kind h) ?_
  refine .tokenIs fun more => ?_
  exact .eat (fun _ => id) fun piece hpiece => .done ⟨hpiece.1, rfl⟩

theorem templateSpans_yields {substitution : Parser Node} (hkind : NodeKind.Simple kind)
    (h : ∀ j, substitution.Yields text r g inside j (fun _ => True)) :
    (templateSpans kind substitution).YieldsAll text r g inside i pre := by
  refine .gather (by simp) fun seen hseen => ?_
  refine .first_of (h _) fun value hvalue => ?_
  refine .bind_of templatePiece_yields fun found hpiece => ?_
  obtain ⟨piece, more⟩ := found
  dsimp only at hpiece ⊢
  have hspan : (group kind [value, piece]).Fits text (inside g.depth) (stopOf i seen.reverse) :=
    fits_simple hkind (by simp) (by simp [*])
  split
  · exact .again (by simp [*])
  · exact .loosely (.finish (by simp [*]))

theorem templateType_such (h : Avoids pre) :
    (templateType r).YieldsSuch text r g inside i pre IsType := by
  refine .eat h fun head hhead => ?_
  refine .bind_of
    (templateSpans_yields ⟨by simp, by simp, fun _ _ => trivial⟩ fun _ => fullType_yields)
    fun spans hspans => ?_
  exact .done (by simp [*])

theorem signedWord_yields {word : TokenKind} (h : word != .endOfFile) :
    (signedWord word).YieldsAll text r g inside i pre := by
  refine .ifAsk ?_ (optional_yields h)
  refine .eat (.of_ask (avoids_isOneOf (by decide))) fun sign hsign => ?_
  refine .expect h fun word hword => ?_
  exact .done (by simp [*])

theorem mappedType_such (h : Avoids pre) :
    (mappedType r).YieldsSuch text r g inside i pre IsType := by
  refine .eat h fun opening hopening => ?_
  refine .bind_of (signedWord_yields rfl) fun readonly hreadonly => ?_
  refine .expect rfl fun bracket hbracket => ?_
  refine .bind_of identifier_yields fun name hname => ?_
  refine .expect rfl fun word hword => ?_
  refine .bind_of fullType_yields fun keys hkeys => ?_
  refine .bind_of (typeAfter_yields rfl) fun newName hnewName => ?_
  refine .expect rfl fun endBracket hendBracket => ?_
  refine .bind_of (signedWord_yields rfl) fun question hquestion => ?_
  refine .bind_of optionalTypeMark_yields fun type htype => ?_
  refine .bind_of (eatIf_yields (avoids_isOneOf (by decide))) fun stop hstop => ?_
  refine .expect rfl fun closing hclosing => ?_
  exact .done (by simp [*])

theorem typeLiteral_such : (typeLiteral r).YieldsSuch text r g around i pre IsType := by
  refine .first_of (.within (fun _ => ⟨rfl, rfl, id, fun _ => rfl⟩) typeMembers_yields)
    fun members hmembers => ?_
  exact .done ⟨⟨fits_guarded hmembers.2 hmembers.1 (by decide) trivial, rfl⟩, by simp [*]⟩

theorem tupleMember_yields [g.IsTop] : (tupleMember r).Yields text r g inside i pre := by
  refine .ifAsk ?_ (.ifTokenIs ?_ ?_)
  · refine .bind_of (optional_yields rfl) fun dots hdots => ?_
    refine .first_of identifierName_yields fun name hname => ?_
    refine .bind_of (optional_yields rfl) fun question hquestion => ?_
    refine .expect rfl fun colon hcolon => ?_
    refine .bind_of fullType_yields fun type htype => ?_
    exact .done (by simp [*])
  · refine .eatAt rfl fun dots hdots => ?_
    refine .bind_of fullType_yields fun type htype => ?_
    exact .done (by simp [*])
  · refine .first_of fullType_yields fun type htype => .ifTokenIs ?_ (.done ⟨htype, rfl⟩)
    exact .eatAt rfl fun question hquestion => .done (by simp [*])

theorem tupleType_such (h : Avoids pre) :
    (tupleType r).YieldsSuch text r g around i pre IsType := by
  refine .eat h fun opening hopening => ?_
  refine .bind_of (commaList_yields fun _ => (nested_yields tupleMember_yields.outward.anywhere))
    fun members hmembers => ?_
  refine .expect rfl fun closing hclosing => ?_
  exact .done ⟨⟨fits_guarded (by simp [*]) (by simp) (by decide) trivial, rfl⟩, by simp⟩

theorem parenthesizedType_such (h : Avoids pre) :
    (parenthesizedType r).YieldsSuch text r g around i pre IsType := by
  refine .eat h fun opening hopening => ?_
  refine .bind_of fullType_yields fun type htype => ?_
  refine .expect rfl fun closing hclosing => ?_
  exact .done ⟨⟨fits_guarded (by simp [*]) (by simp) (by decide) trivial, rfl⟩, by simp⟩

/-! ## Operators -/

theorem single_such {good : Node → Prop} (hkind : NodeKind.Simple kind)
    (hgood : ∀ token, token.isLeaf → good (group kind [token])) (h : Avoids pre) :
    (single kind).YieldsSuch text r g inside i pre good :=
  .eat h fun token htoken =>
    .done ⟨⟨fits_simple hkind (by simp) (by simp [*]), hgood token htoken.2⟩, by simp⟩

theorem tokenType_such {token : TokenKind} (htoken : token != .endOfFile)
    (hkind : NodeKind.Simple kind) (htype : kind.isTypePart = false) :
    (single kind).YieldsSuch text r g inside i (At token) IsType :=
  single_such hkind (fun _ _ => htype) (.at htoken)

theorem negative_such : (do
      let sign ← eat
      let literal ← eat
      return .group .literalType [sign, literal] : Parser Node).YieldsSuch text r g inside i
    (fun s => At .minus s ∧ s.scan.isOneOf [.numericLiteral, .bigIntLiteral]) IsType := by
  refine .first (eat_taken fun s hs => Avoids.at rfl s hs.1) fun sign k => ?_
  refine .given (fun _ h => h.1) fun ⟨hsign, hstop⟩ => .eat ?_ fun literal hliteral => ?_
  · rintro t ⟨-, s, -, hs, -, rfl⟩
    exact avoids_isOneOf (by decide) _ hs.2
  · exact .done (by simp_all)

theorem plainType_such : (plainType r).YieldsSuch text r g around i pre IsType := by
  refine .kind fun kind => ?_
  split
  iterate 11
    exact .outwardSuch (.ifAsk typeReference_such
      (.knowing (tokenType_such rfl ⟨by simp, by simp, fun _ _ => trivial⟩ rfl) fun _ => id))
  iterate 9 exact .outwardSuch (tokenType_such rfl ⟨by simp, by simp, fun _ _ => trivial⟩ rfl)
  · exact .outwardSuch (.ifAsk negative_such typeReference_such)
  · exact .outwardSuch (templateType_such (.at rfl))
  · exact .outwardSuch (typeQuery_such (.at rfl))
  · exact .outwardSuch (importType_such (by simp))
  · refine .ifAsk (.outwardSuch (mappedType_such fun s h => Avoids.at rfl s h.1)) ?_
    exact typeLiteral_such
  · exact tupleType_such (.at rfl)
  · exact parenthesizedType_such (.at rfl)
  · exact .outwardSuch typeReference_such

theorem postfixType_such : (postfixType r).YieldsSuch text r g around i pre IsType := by
  refine .first_of plainType_such fun first hfirst => ?_
  refine .steps hfirst fun type htype => .ifAsk ?_ (.finish ⟨htype, rfl⟩)
  refine .eat (.of_ask avoids_openBracket) fun opening hopening => .ifTokenIs ?_ ?_
  · exact .eatAt rfl fun closing hclosing => .again (by simp [*])
  · refine .bind_of fullType_yields fun key hkey => ?_
    refine .expect rfl fun closing hclosing => ?_
    exact .again (by simp [*])

theorem inferBound_yields : (inferBound r).YieldsSome text r g inside i pre := by
  refine .expect rfl fun word hword => ?_
  refine .bind_of (.within (fun _ => ⟨rfl, rfl, id, fun _ => rfl⟩) (inner_yields rfl))
    fun bound hbound => ?_
  refine .ground (fun _ _ => rfl) fun c _ => .tokenIs fun found => ?_
  split
  · exact .done (by simp [*])
  · exact .fail

theorem inferType_such (h : Avoids pre) :
    (inferType r).YieldsSuch text r g inside i pre IsType := by
  refine .eat h fun word hword => ?_
  refine .bind_of identifier_yields fun name hname => ?_
  refine .bind (.try inferBound_yields) fun bound k => .given (fun _ => id) fun hbound => ?_
  cases bound with
  | none =>
    cases hbound
    exact .done (by simp [*])
  | some nodes =>
    obtain ⟨hnodes, rfl⟩ := hbound
    exact .done (by simp [*])

theorem operatorType_such : (operatorType r).YieldsSuch text r g around i pre IsType := by
  refine .kind fun kind => ?_
  split
  iterate 3
    refine .eatAt rfl fun word hword => ?_
    refine .bind_of (nested_yields (outer_such rfl).plain.anywhere) fun type htype => ?_
    exact .done (by simp [*])
  · exact .outwardSuch (inferType_such (.at rfl))
  · exact postfixType_such

theorem functionType_such : (functionType r).YieldsSuch text r g around i pre IsType := by
  refine .bind_of (optional_yields rfl) fun modifier hmodifier => ?_
  refine .bind_of (optional_yields rfl) fun word hword => ?_
  refine .bind_of optionalTypeParameters_yields fun types htypes => ?_
  refine .first_of parameterList_such fun parameters hparameters => ?_
  refine .expect rfl fun arrow harrow => ?_
  refine .bind_of typeOrPredicate_yields fun result hresult => ?_
  refine .done ?_
  split <;> simp [*]

theorem joinedType_such {operator : TokenKind} {part : Parser Node}
    (hoperator : operator != .endOfFile) (hkind : NodeKind.Simple kind)
    (htype : kind.isTypePart = false)
    (hpart : ∀ {g i pre}, part.YieldsSuch text r g around i pre IsType) :
    (joinedType r operator kind part).YieldsSuch text r g around i pre IsType := by
  have hone {g : Level} {i : Nat} :
      (do if ← ask (·.startsFunctionType) then functionType r else part : Parser Node).YieldsSuch
        text r g around i (fun _ => True) IsType :=
    .ifAsk functionType_such hpart
  refine .bind_of (optional_yields hoperator) fun front hfront => ?_
  refine .first_of hone fun first hfirst => ?_
  have hloop : (loopFrom [first] fun seen => do
      if ← tokenIs operator then
        let mark ← eat
        let next ← (do if ← ask (·.startsFunctionType) then functionType r else part : Parser Node)
        return Turn.again (next :: mark :: seen)
      else
        return Turn.finish seen.reverse).Made text r g.top first.span.stop (fun _ => True)
      Perhaps fun nodes k _ => (nodes ≠ [] ∧ AllFit text (around g.depth) (stopOf i front) nodes ∧
        ∀ node ∈ nodes, IsType node) ∧ stopOf (stopOf i front) nodes = k := by
    refine .loopOf (fun seen => seen ≠ [] ∧ AllFit text (around g.depth)
        (stopOf i front) seen.reverse ∧ ∀ node ∈ seen, IsType node)
      (fun seen => stopOf (stopOf i front) seen.reverse) (by simp [hfirst]) fun seen hseen => ?_
    refine .ifTokenIs ?_ (.finish (by simpa using hseen))
    refine .eatAt hoperator fun mark hmark => ?_
    refine .bind_of hone fun next hnext => .again ⟨⟨by simp, by simp [*], ?_⟩, by simp⟩
    exact List.forall_mem_cons.2 ⟨hnext.2, List.forall_mem_cons.2 ⟨by simp [*], hseen.2.2⟩⟩
  refine .bind_of hloop fun parts hparts => ?_
  split
  · exact .done (by simpa using hparts)
  · exact .done ⟨⟨fits_simple hkind (by simp [*]) (by simp [*]), htype⟩, by simp [*]⟩

theorem unionType_such : (unionType r).YieldsSuch text r g around i pre IsType :=
  joinedType_such rfl ⟨by simp, by simp, fun _ _ => trivial⟩ rfl
    (joinedType_such rfl ⟨by simp, by simp, fun _ _ => trivial⟩ rfl operatorType_such)

theorem conditionalType_such {checked : Node} (h : Avoids pre)
    (hchecked : checked.Fits text (around g.depth) i) :
    (conditionalType r checked).GivesSuch text r g around i checked.span.stop pre Always
      IsType := by
  refine .eat h fun word hword => ?_
  refine .bind_of (.within (fun _ => ⟨rfl, rfl, id, fun _ => rfl⟩) (inner_yields rfl))
    fun bound hbound => ?_
  refine .expect rfl fun question hquestion => ?_
  refine .bind_of fullType_yields fun yes hyes => ?_
  refine .expect rfl fun colon hcolon => ?_
  refine .bind_of fullType_yields fun no hno => ?_
  exact .done (by simp [*])

theorem anyType_such : (anyType r).YieldsSuch text r g around i pre IsType := by
  refine .ifAsk functionType_such (.first_of unionType_such fun type htype => ?_)
  refine .ground (fun _ _ => rfl) fun c _ => ?_
  split
  · exact .done ⟨htype, rfl⟩
  · refine .ifAsk (.loosely (conditionalType_such (.of_ask fun s h hkind => ?_) htype.1))
      (.done ⟨htype, rfl⟩)
    simp [hkind] at h

/-! ## Elements -/

theorem jsxName_leaf : jsxName.YieldsSuch text r g.top inside i pre (·.isLeaf) :=
  .moveBy (fun _ => True) Level.IsTop.pos .jsxName (fun _ _ => trivial)
    (.ifTokenIs (eat_leaf (.at rfl)) .fail)

theorem jsxNamespaced_yields {name : Node} (h : Avoids pre)
    (hname : name.Fits text (inside g.depth) i) :
    (jsxNamespaced name).Gives text r g inside i name.span.stop pre Always := by
  refine .eat h fun colon hcolon => ?_
  refine .bind_of jsxName_leaf fun member hmember => ?_
  exact .done (by simp [*])

theorem jsxMembers_such {first : Node}
    (hfirst : first.Fits text (inside g.depth) i ∧ first.isLeaf) :
    (jsxMembers first).GivesSuch text r g inside i first.span.stop pre Perhaps
      (·.isOperand) := by
  refine .steps ⟨hfirst.1, isOperand_of_isLeaf hfirst.2⟩ fun owner howner =>
    .ifTokenIs ?_ (.finish ⟨howner, rfl⟩)
  refine .eatAt rfl fun dot hdot => ?_
  refine .bind_of identifierName_yields fun member hmember => ?_
  exact .again (by simp [*])

theorem jsxTagName_yields : jsxTagName.Yields text r g.top inside i pre := by
  refine .ifTokenIs ?_ ?_
  · exact .eatAt rfl fun word hword => (jsxMembers_such ⟨hword.1, hword.2.1⟩).plain
  · refine .first_of jsxName_leaf fun name hname => ?_
    exact .ifTokenIs (.loosely (jsxNamespaced_yields (.at rfl) hname.1))
      (jsxMembers_such hname).plain

theorem eatBefore_yields (h : Avoids pre) :
    (eatBefore inExpression).Yields text r g inside i pre := by
  unfold eatBefore
  split
  · exact eat_yields h
  · exact eatJsx_yields h

theorem jsxExpression_yields (h : Avoids pre) :
    (jsxExpression r inExpression).Yields text r g inside i pre := by
  refine .eat h fun opening hopening => .tokenIs fun found => ?_
  extract_lets afterValue
  have hafterValue : ∀ value, AllFit text (inside g.depth) opening.span.stop value →
      (afterValue value).Gives text r g.top inside i (stopOf opening.span.stop value)
        (fun _ => True) Perhaps := by
    intro value hvalue
    refine .ifTokenIs ?_ .failExpected
    exact .bind_of (eatBefore_yields (.at rfl)) fun closing hclosing => .done (by simp [*])
  split
  · exact hafterValue [] allFit_nil
  · refine .bind_of (optional_yields rfl) fun dots hdots => ?_
    refine .bind_of (inner_yields rfl) fun value hvalue => ?_
    have hvalue := hafterValue (dots ++ [value]) (by simp [*])
    rwa [stopOf_append] at hvalue

theorem jsxAttributeValue_yields : (jsxAttributeValue r).Yields text r g.top inside i pre := by
  refine .kind fun kind => ?_
  split
  · exact .moveBy (At .stringLiteral) Level.IsTop.pos .jsxValue
      (fun _ h => Scanner.rescanJsxValue_kind h) (eat_yields (.at rfl))
  · exact jsxExpression_yields (.at rfl)
  · exact inner_yields rfl
  · exact .fail

theorem jsxAttribute_yields : (jsxAttribute r).Yields text r g.top inside i pre := by
  refine .ifTokenIs ?_ ?_
  · refine .eatAt rfl fun opening hopening => ?_
    refine .expect rfl fun dots hdots => ?_
    refine .bind_of (inner_yields rfl) fun value hvalue => ?_
    refine .expect rfl fun closing hclosing => ?_
    exact .done (by simp [*])
  · refine .first_of jsxName_leaf fun name hname => .askKnown fun found => ?_
    extract_lets afterName
    have hafterName : ∀ name, name.Fits text (inside g.depth) i →
        (afterName name).Gives text r g.top inside i name.span.stop (fun _ => True)
          Perhaps := by
      intro name hname
      refine .ifTokenIs ?_ (.done (by simp [*]))
      refine .eatAt rfl fun equals hequals => ?_
      refine .bind_of jsxAttributeValue_yields fun value hvalue => ?_
      exact .done (by simp [*])
    cases found with
    | true => exact .bind_of (jsxNamespaced_yields (.of_token rfl) hname.1) hafterName
    | false => exact .bind_of (.done ⟨hname.1, rfl⟩) hafterName

theorem jsxEnd_yields : (jsxEnd inExpression).Yields text r g inside i pre :=
  .ifTokenIs (eatBefore_yields (.at rfl)) .failExpected

theorem jsxOpening_such :
    (jsxOpening r inExpression).YieldsSuch text r g inside i pre fun node =>
      node.isKind .jsxOpeningElement ∨ node.isKind .jsxOpeningFragment ∨
        node.isUnary := by
  refine .expect rfl fun opening hopening => .ifTokenIs ?_ ?_
  · exact .bind_of (eatJsx_yields (.at rfl)) fun closing hclosing => .done (by simp [*])
  · refine .bind_of jsxTagName_yields fun name hname => ?_
    refine .bind_of (parseIf_yields typeArguments_yields) fun types htypes => ?_
    refine .bind_of (manyUntil_yields fun _ => jsxAttribute_yields) fun attributes hattributes => ?_
    refine .ifTokenIs ?_ ?_
    · exact .bind_of (eatJsx_yields (.at rfl)) fun closing hclosing => .done (by simp [*])
    · refine .expect rfl fun slash hslash => ?_
      refine .bind_of jsxEnd_yields fun closing hclosing => ?_
      exact .done (by simp [*])

theorem jsxChildren_yields : (jsxChildren r).Made text r g.top i pre Perhaps
    fun children k s => (AllFit text (inside g.depth) i children ∧ stopOf i children = k) ∧
      At .lessThanSlash s := by
  refine .loopOf (fun seen => AllFit text (inside g.depth) i seen.reverse)
    (fun seen => stopOf i seen.reverse) (by simp) fun seen hseen => .kind fun kind => ?_
  split
  · exact .finishAt fun _ h => ⟨⟨hseen, rfl⟩, h⟩
  · exact .first_of (eatJsx_yields (.at rfl)) fun text htext => .again (by simp [*])
  · exact .first_of (jsxExpression_yields (.at rfl)) fun value hvalue =>
      .again (by simp [*])
  · exact .first_of (inner_yields rfl) fun element helement => .again (by simp [*])
  · exact .failExpected

/-- What lies in an element lies one level deeper. -/
theorem jsxElement_such :
    (jsxElement r inExpression).YieldsSuch text r g around i pre (·.isUnary) := by
  refine .first_of jsxOpening_such fun opening hopening => ?_
  split
  · rename_i hkind
    have hkind : opening.isKind .jsxOpeningElement := beq_iff_eq.2 hkind
    refine .bind jsxChildren_yields fun children k =>
      .given (fun _ h => h.1) fun ⟨hchildren, hstop⟩ => ?_
    subst hstop
    refine .eat (fun s h => Avoids.at rfl s h.2) fun slash hslash => ?_
    refine .bind_of jsxTagName_yields fun name hname => ?_
    refine .bind_of jsxEnd_yields fun stop hstop => ?_
    exact .done ⟨⟨fits_guarded (by simp [*]) (by simp) (by decide) (by simp [hkind]), rfl⟩, by simp⟩
  · rename_i hkind
    have hkind : opening.isKind .jsxOpeningFragment := beq_iff_eq.2 hkind
    refine .bind jsxChildren_yields fun children k =>
      .given (fun _ h => h.1) fun ⟨hchildren, hstop⟩ => ?_
    subst hstop
    refine .eat (fun s h => Avoids.at rfl s h.2) fun slash hslash => ?_
    refine .bind_of jsxEnd_yields fun stop hstop => ?_
    exact .done (by simp [*])
  · rename_i helement hfragment
    rcases hopening.2 with hkind | hkind | hunary
    · exact absurd (beq_iff_eq.1 hkind) helement
    · exact absurd (beq_iff_eq.1 hkind) hfragment
    · exact .done (by simp [*])

end Untype.Grammar
