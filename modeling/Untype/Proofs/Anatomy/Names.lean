-- What the parsers of names, functions and members are made of.
import Untype.Proofs.Anatomy.Parts

namespace Untype.Grammar

open Untype.Node Untype.Grammar.Parser

variable {async generator mayLackBody : Bool} {front : List Node}

attribute [local simp] NodeKind.HasShape

variable {text : Source} {r : Rules} {g : Level} {i j : Nat} {pre : Scanner → Prop}

/-! ## Names -/

theorem isIdentifierOrKeyword_of_isIdentifier {s : Scanner} (h : s.isIdentifier) :
    s.kind.isIdentifierOrKeyword := by
  unfold Scanner.isIdentifier TokenKind.isIdentifierLike at h
  unfold TokenKind.isIdentifierOrKeyword TokenKind.isWord
  grind

theorem identifier_token : identifier.YieldsSuch text r g inside i pre
    (IsToken .identifier) :=
  .ifAsk (eatAs_token fun _ => isIdentifierOrKeyword_of_isIdentifier) .fail

theorem identifier_yields : identifier.Yields text r g inside i pre :=
  identifier_token.plain

theorem identifierName_yields : identifierName.Yields text r g inside i pre :=
  .ifAsk (eatAs_token fun _ => id).plain
    (.ifTokenIs (eat_yields (.at rfl)) .fail)

theorem moduleExportName_yields : moduleExportName.Yields text r g inside i pre :=
  .ifTokenIs (eat_yields (.at rfl)) identifierName_yields

theorem entityName_name : entityName.YieldsSuch text r g inside i pre
    (·.isToken .semicolon = false) := by
  refine .first_of identifier_token fun first hfirst => ?_
  refine .steps ⟨hfirst.1, isToken_of_ne hfirst.2.2 (by decide)⟩ fun name hname =>
    .ifTokenIs ?_ (.finish ⟨hname, rfl⟩)
  refine .eatAt rfl fun dot hdot => ?_
  refine .bind_of identifierName_yields fun member hmember => ?_
  exact .again (by simp [*])

theorem entityName_yields : entityName.Yields text r g inside i pre := entityName_name.plain

theorem propertyName_yields : (propertyName r).Yields text r g inside i pre := by
  refine .kind fun kind => ?_
  split
  iterate 4 exact eat_yields (.at rfl)
  · refine .eatAt rfl fun opening hopening => ?_
    refine .bind_of (.within (fun _ => ⟨rfl, rfl, fun _ => rfl, fun _ => rfl⟩) (inner_yields rfl))
      fun key hkey => ?_
    refine .expect rfl fun closing hclosing => ?_
    exact .done (by simp [*])
  · exact identifierName_yields

/-! ## Types in declarations -/

theorem fullType_yields [g.IsTop] : (fullType r).Yields text r g inside i pre :=
  .within (fun _ => ⟨rfl, rfl, id, fun _ => rfl⟩) (inner_yields rfl)

theorem typeMark_yields : (typeMark r).Yields text r g inside i pre := by
  refine .expect rfl fun colon hcolon => ?_
  refine .bind_of fullType_yields fun type htype => ?_
  exact .done (by simp [*])

theorem avoids_isAssertion (s : Scanner) (h : s.isAssertion) : s.kind ≠ .endOfFile := by
  intro hkind
  simp [Scanner.isAssertion, hkind] at h

theorem typeOrPredicate_yields : (typeOrPredicate r).Yields text r g.top inside i pre := by
  refine .askKnown fun asserts => .ask fun predicate => ?_
  split
  · extract_lets afterWord
    have hafterWord : ∀ word, AllFit text (inside g.depth) i word →
        (afterWord word).Gives text r g.top inside i (stopOf i word) (fun _ => True) Always := by
      intro word hword
      refine .askKnown fun found => ?_
      extract_lets afterSubject
      have hafterSubject : ∀ subject, subject.Fits text (inside g.depth) (stopOf i word) →
          (afterSubject subject).Gives text r g.top inside i subject.span.stop
            (fun _ => True) Perhaps := by
        intro subject hsubject
        refine .ifTokenIs ?_ (.done (by simp [*]))
        refine .eatAt rfl fun is his => ?_
        refine .bind_of fullType_yields fun type htype => ?_
        exact .done (by simp [*])
      cases found with
      | true => exact .eat (.of_token rfl) fun subject hsubject => hafterSubject subject hsubject.1
      | false => exact .first_of identifier_yields hafterSubject
    cases asserts with
    | true =>
      have hword : (do return [← eat] : Parser (List Node)).YieldsAll text r g.top inside i
          (fun s => pre s ∧ s.isAssertion) :=
        .eat (.of_ask avoids_isAssertion) fun word hword => .done (by simp [hword])
      exact .bind_of hword hafterWord
    | false => exact .bind_of (.done (by simp)) hafterWord
  · exact fullType_yields

theorem returnMark_such : (returnMark r).YieldsSuch text r g inside i pre
    (·.isKind .block = false) := by
  refine .expect rfl fun colon hcolon => ?_
  refine .bind_of typeOrPredicate_yields fun type htype => ?_
  exact .done (by simp [*])

theorem typeAfter_yields {word : TokenKind} (h : word != .endOfFile) :
    (typeAfter r word).YieldsAll text r g inside i pre := by
  refine .ifTokenIs ?_ (.done (by simp))
  refine .eatAt h fun word hword => ?_
  refine .bind_of fullType_yields fun type htype => ?_
  exact .done (by simp [*])

theorem avoids_isOneOf {kinds : List TokenKind} (h : .endOfFile ∉ kinds) (s : Scanner)
    (hs : s.isOneOf kinds) : s.kind ≠ .endOfFile := by
  rintro hkind
  simp only [Scanner.isOneOf, hkind, List.contains_iff_mem] at hs
  exact h hs

theorem typeParameter_yields : (typeParameter r).Yields text r g inside i pre := by
  refine .bind_of (manyWhile_eat_yields fun s h => avoids_isOneOf (by decide) s
    (Bool.and_eq_true_iff.1 h).1) fun modifiers hmodifiers => ?_
  refine .first_of identifier_yields fun name hname => ?_
  refine .bind_of (typeAfter_yields rfl) fun bound hbound => ?_
  refine .bind_of (typeAfter_yields rfl) fun default hdefault => ?_
  exact .done (by simp [*])

theorem typeParameters_such : (typeParameters r).YieldsSuch text r g inside i pre
    (·.isKind .typeParameters) := by
  refine .expect rfl fun opening hopening => ?_
  refine .bind_of (commaList_yields fun _ => typeParameter_yields) fun parameters hparameters => ?_
  refine .expect rfl fun closing hclosing => ?_
  exact .done (by simp [*])

theorem optionalTypeParameters_yields :
    (optionalTypeParameters r).YieldsAll text r g inside i pre :=
  parseIf_yields typeParameters_such.plain

theorem typeArguments_such : (typeArguments r).YieldsSuch text r g inside i pre
    (·.isKind .typeArguments) := by
  refine .expect rfl fun opening hopening => ?_
  refine .bind_of (commaItems_yields fun _ => fullType_yields) fun arguments harguments => ?_
  refine .expect rfl fun closing hclosing => ?_
  exact .done (by simp [*])

theorem typeArguments_yields : (typeArguments r).Yields text r g inside i pre :=
  typeArguments_such.plain

/-! ## Blocks and bindings -/

/-- What is there by its braces, and may stand as a statement. -/
@[simp]
abbrev IsBlock (node : Node) : Prop := node.isKind .block ∧ Stands node

theorem block_such : (block r).YieldsSuch text r g around i pre IsBlock := by
  refine .expect rfl fun opening hopening => ?_
  refine .bind_of (manyUntil_yields fun _ => inner_yields rfl) fun statements hstatements => ?_
  refine .expect rfl fun closing hclosing => ?_
  exact .done ⟨⟨fits_guarded (by simp [*]) (by simp) (by decide) (by simp [List.getLast?_cons, *]),
    by simp [NodeKind.isStatement, *]⟩, by simp⟩

theorem functionBody_such :
    (functionBody r async generator).YieldsSuch text r g around i pre IsBlock :=
  .within (fun _ => ⟨rfl, rfl, fun _ => rfl, fun _ => rfl⟩) block_such

theorem initializer_yields : (initializer r).YieldsAll text r g inside i pre := by
  refine .ifTokenIs ?_ (.done (by simp))
  refine .eatAt rfl fun equals hequals => ?_
  refine .bind_of (inner_yields rfl) fun value hvalue => ?_
  exact .done (by simp [*])

theorem objectBinding_yields : (objectBinding r).Yields text r g inside i pre := by
  refine .askKnown fun found => ?_
  extract_lets afterTarget
  have hafterTarget : ∀ target, target ≠ [] → AllFit text (inside g.depth) i target →
      (afterTarget target).Gives text r g.top inside i (stopOf i target) (fun _ => True)
        Perhaps := by
    intro target hne htarget
    refine .bind_of initializer_yields fun default hdefault => ?_
    exact .done (by simp [*])
  cases found with
  | true =>
    refine .eat (.of_token rfl) fun dots hdots => ?_
    exact .bind_of identifier_yields fun name hname => hafterTarget [dots, name] (by simp)
      (by simp [*])
  | false =>
    refine .ifAsk ?_ ?_
    · exact .first_of identifier_yields fun name hname =>
        hafterTarget [name] (by simp) (by simp [*])
    · refine .first_of propertyName_yields fun key hkey => ?_
      refine .expect rfl fun colon hcolon => ?_
      exact .bind_of (inner_yields rfl) fun name hname =>
        hafterTarget [key, colon, name] (by simp) (by simp [*])

theorem arrayBinding_yields : (arrayBinding r).Yields text r g.top inside i pre := by
  refine .bind_of (optional_yields rfl) fun dots hdots => ?_
  refine .first_of (inner_yields rfl) fun name hname => ?_
  refine .bind_of initializer_yields fun default hdefault => ?_
  exact .done (by simp [*])

theorem bindingName_yields : (bindingName r).Yields text r g inside i pre := by
  refine .kind fun kind => ?_
  split
  · refine .eatAt rfl fun opening hopening => ?_
    refine .bind_of (commaList_yields fun _ => objectBinding_yields) fun elements helements => ?_
    refine .expect rfl fun closing hclosing => ?_
    exact .done (by simp [*])
  · refine .eatAt rfl fun opening hopening => ?_
    refine .bind_of (sparseList_yields fun _ => arrayBinding_yields) fun elements helements => ?_
    refine .expect rfl fun closing hclosing => ?_
    exact .done (by simp [*])
  · exact identifier_yields

theorem optionalTypeMark_yields : (optionalTypeMark r).YieldsAll text r g inside i pre :=
  parseIf_yields typeMark_yields

theorem variableDeclaration_yields : (variableDeclaration r).Yields text r g.top inside i pre := by
  refine .first_of (inner_yields rfl) fun name hname => ?_
  refine .bind_of (eatIf_yields fun s h hkind => ?_) fun definite hdefinite => ?_
  · simp [hkind] at h
  · refine .bind_of optionalTypeMark_yields fun type htype => ?_
    refine .bind_of initializer_yields fun value hvalue => ?_
    exact .done (by simp [*])

theorem isLeaf_head {word : Node} (hfront : ∀ node ∈ front, node.isLeaf)
    (hword : word.isLeaf) : (front.head?.getD word).isLeaf := by
  cases front with
  | nil => exact hword
  | cons first front => exact hfront first List.mem_cons_self

theorem variableDeclarations_such : (variableDeclarations r).YieldsSuch text r g inside i pre
    (·.isKind .variableDeclarationList) := by
  refine .bind_of (optional_each rfl) fun await hawait => ?_
  refine .ifAsk ?_ .failExpected
  refine .eat (.of_ask (avoids_isOneOf (by decide))) fun word hword => ?_
  refine .bind_of (commaItems_yields fun _ => variableDeclaration_yields)
    fun declared hdeclared => ?_
  have hstart := isLeaf_head (fun node hnode => (hawait.2 node hnode).1) hword.2
  exact .done (by simp [*])

/-! ## Parameters -/

theorem decorators_each : (decorators r).YieldsEach text r g around i pre
    (·.isKind .decorator) := by
  refine manyWhile_each fun _ => .knowing ?_ fun s h => (beq_iff_eq.1 h : At .atSign s)
  refine .eatAt rfl fun sign hsign => ?_
  refine .bind_of (.within (fun _ => ⟨rfl, rfl, id, fun _ => rfl⟩) (outer_such rfl))
    fun value hvalue => ?_
  exact .done (by simp [*])

theorem decorators_yields : (decorators r).YieldsAll text r g around i pre :=
  decorators_each.allowing fun _ _ _ => And.imp_left And.left

theorem parameter_yields : (parameter r).Yields text r g.top around i pre := by
  refine .bind_of decorators_yields fun decorators hdecorators => ?_
  refine .bind_of (manyWhile_eat_yields fun s h => avoids_isOneOf (by decide) s
    (Bool.and_eq_true_iff.1 h).1) fun modifiers hmodifiers => ?_
  refine .askKnown fun found => ?_
  extract_lets afterName
  have hafterName : ∀ name, name ≠ [] →
      AllFit text (inside g.depth) (stopOf (stopOf i decorators) modifiers) name →
      (afterName name).Gives text r g.top around i
        (stopOf (stopOf (stopOf i decorators) modifiers) name) (fun _ => True) Perhaps := by
    intro name hne hname
    refine .bind_of (optional_yields rfl) fun question hquestion => ?_
    refine .bind_of optionalTypeMark_yields fun type htype => ?_
    refine .bind_of initializer_yields fun default hdefault => ?_
    exact .done (by simp [*])
  cases found with
  | true => exact .eat (.of_token rfl) fun word hword => hafterName [word] (by simp) (by simp [*])
  | false =>
    refine .bind_of (optional_yields rfl) fun dots hdots => ?_
    refine .first_of (inner_yields rfl) fun name hname => ?_
    have hnamed := hafterName (dots ++ [name]) (by simp) (by simp [*])
    rwa [stopOf_append] at hnamed

theorem parameterList_such : (parameterList r).YieldsSuch text r g around i pre
    (·.isKind .parameterList) := by
  refine .expect rfl fun opening hopening => ?_
  refine .bind_of (commaList_yields fun _ => parameter_yields) fun parameters hparameters => ?_
  refine .expect rfl fun closing hclosing => ?_
  exact .done (by simp [*])

/-- The nodes have no block among them. -/
@[simp]
abbrev LackBlock (nodes : List Node) : Prop := ∀ node ∈ nodes, node.isKind .block = false

theorem signature_lacks : (signature r).Made text r g i pre Always fun nodes k _ =>
    (nodes ≠ [] ∧ AllFit text (around g.depth) i nodes ∧ LackBlock nodes) ∧ stopOf i nodes = k := by
  refine .bind_of (parseIf_each typeParameters_such) fun types htypes => ?_
  refine .first_of parameterList_such fun parameters hparameters => ?_
  refine .bind_of (parseIf_each returnMark_such) fun result hresult => ?_
  have htypes' : LackBlock types := fun node hnode => isKind_of_ne (htypes.2 node hnode) (by decide)
  have hparameters' := isKind_of_ne hparameters.2 (by decide : _ ≠ .block)
  refine .done ⟨⟨by simp, by simp [*], ?_⟩, by simp⟩
  simpa [or_imp, forall_and, hparameters'] using ⟨htypes', hresult.2⟩

theorem signature_yields : (signature r).YieldsSome text r g around i pre :=
  signature_lacks.allowing fun _ _ _ => And.imp_left fun h => ⟨h.1, h.2.1⟩

theorem signatureAndBody_ends :
    (signatureAndBody r async generator mayLackBody).Made text r g i pre Always
      fun nodes k _ => (nodes ≠ [] ∧ AllFit text (around g.depth) i nodes ∧
        (LackBlock nodes ∨ nodes.getLast?.any (isKind .block))) ∧ stopOf i nodes = k := by
  refine .first_of signature_lacks fun head hhead => .ifTokenIs ?_ ?_
  · refine .bind_of functionBody_such fun body hbody => ?_
    exact .done (by simp [*])
  · split
    · refine .bind_of semicolon_each fun stop hstop => ?_
      refine .done ⟨⟨by simp [*], by simp [*], .inl fun node hnode => ?_⟩, by simp [*]⟩
      rcases List.mem_append.1 hnode with hnode | hnode
      · exact hhead.2.2 node hnode
      · exact isKind_of_isLeaf (hstop.2 node hnode).1 _
    · exact .failExpected

theorem signatureAndBody_yields :
    (signatureAndBody r async generator mayLackBody).YieldsSome text r g around i pre :=
  signatureAndBody_ends.allowing fun _ _ _ => And.imp_left fun h => ⟨h.1, h.2.1⟩

/-! ## Members -/

theorem memberEnd_yields : memberEnd.YieldsAll text r g inside i pre :=
  .ifTokenIs (.eatAt rfl fun comma hcomma => .done (by simp [hcomma])) semicolon_yields

theorem indexSignature_yields (h : Avoids pre) (hfront : FitTo text (around g.depth) i j front) :
    (indexSignature r front).Gives text r g around i j pre Always := by
  refine .eat h fun opening hopening => ?_
  refine .bind_of (commaList_yields fun _ => parameter_yields) fun parameters hparameters => ?_
  refine .expect rfl fun closing hclosing => ?_
  refine .bind_of optionalTypeMark_yields fun type htype => ?_
  refine .bind_of memberEnd_yields fun stop hstop => ?_
  exact .done (by simp [*])

theorem avoids_isAccessorStart (s : Scanner) (h : s.isAccessorStart) : s.kind ≠ .endOfFile := by
  intro hkind
  simp [Scanner.isAccessorStart, hkind] at h

theorem avoids_isMemberModifier (s : Scanner) (h : s.isMemberModifier) :
    s.kind ≠ .endOfFile := by
  intro hkind
  have hmodifier : TokenKind.endOfFile.isModifier = false := by decide
  simp [Scanner.isMemberModifier, hkind, hmodifier] at h

theorem avoids_openBracket {question : Scanner → Bool} (s : Scanner)
    (h : (s.kind == .openBracket && question s)) : s.kind ≠ .endOfFile := by
  intro hkind
  simp [hkind] at h

theorem typeMember_yields : (typeMember r).Yields text r g around i pre := by
  refine .ifAsk ?_ (.ifAsk ?_ ?_)
  · refine .first_of signature_yields fun head hhead => ?_
    refine .bind_of memberEnd_yields fun stop hstop => ?_
    exact .done (by simp [*])
  · refine .eat (.of_ask fun s h hkind => by simp [hkind] at h) fun word hword => ?_
    refine .bind_of signature_yields fun head hhead => ?_
    refine .bind_of memberEnd_yields fun stop hstop => ?_
    exact .done (by simp [*])
  · refine .bind_of (manyWhile_eat_yields fun s h => ?_) fun modifiers hmodifiers => ?_
    · rcases Bool.or_eq_true_iff.1 h with h | h
      · exact avoids_isMemberModifier s h
      · exact avoids_isAccessorStart s h
    · refine .ifAsk (indexSignature_yields (.of_ask avoids_openBracket) (by simp [*])) ?_
      refine .first_of propertyName_yields fun name hname => ?_
      refine .bind_of (optional_yields rfl) fun question hquestion => .ifAsk ?_ ?_
      · refine .bind_of signature_yields fun head hhead => ?_
        refine .bind_of memberEnd_yields fun stop hstop => ?_
        exact .done (by simp [*])
      · refine .bind_of optionalTypeMark_yields fun type htype => ?_
        refine .bind_of memberEnd_yields fun stop hstop => ?_
        exact .done (by simp [*])

theorem typeMembers_yields : (typeMembers r).YieldsSome text r g inside i pre := by
  refine .expect rfl fun opening hopening => ?_
  refine .bind_of (manyUntil_yields fun _ => (nested_yields typeMember_yields.anywhere))
    fun members hmembers => ?_
  refine .expect rfl fun closing hclosing => ?_
  exact .done (by simp [*])

theorem propertyOrMethod_yields (hfront : FitTo text (around g.depth) i j front) :
    (propertyOrMethod r front).Gives text r g around i j pre Always := by
  refine .bind_of (optional_yields rfl) fun star hstar => ?_
  refine .first_of propertyName_yields fun name hname => ?_
  refine .bind_of (eatIf_yields fun s h hkind => by simp [hkind] at h) fun mark hmark => ?_
  refine .ask fun found => ?_
  split
  · refine .bind_of signatureAndBody_yields fun rest hrest => ?_
    exact .done (by simp [*])
  · refine .bind_of optionalTypeMark_yields fun type htype => ?_
    refine .bind_of (.within (fun _ => ⟨rfl, rfl, fun _ => rfl, fun _ => rfl⟩) initializer_yields)
      fun value hvalue => ?_
    refine .bind_of semicolon_yields fun stop hstop => ?_
    exact .done (by simp [*])

theorem memberAfter_yields (hfront : FitTo text (around g.depth) i j front) :
    (memberAfter r front).Gives text r g around i j pre Always := by
  refine .ifAsk ?_ (.ifAsk ?_ (.ifAsk ?_ (propertyOrMethod_yields hfront)))
  · refine .eat (.of_ask fun s h hkind => by simp [hkind] at h) fun word hword => ?_
    refine .bind_of signatureAndBody_yields fun rest hrest => ?_
    exact .done (by simp [*])
  · refine .tokenIs fun found => ?_
    refine .eat (.of_ask avoids_isAccessorStart) fun word hword => ?_
    refine .bind_of propertyName_yields fun name hname => ?_
    refine .bind_of signatureAndBody_yields fun rest hrest => ?_
    refine .done ?_
    split <;> simp [*]
  · exact indexSignature_yields (.of_ask avoids_openBracket) hfront

theorem classMember_yields : (classMember r).Yields text r g around i pre := by
  refine .ifTokenIs ?_ (.ifAsk ?_ ?_)
  · exact .eatAt rfl fun stop hstop => .done (by simp [*])
  · refine .eat (.of_ask fun s h hkind => by simp [hkind] at h) fun word hword => ?_
    refine .bind_of functionBody_such fun body hbody => ?_
    exact .done (by simp [*])
  · refine .bind_of decorators_yields fun decorators hdecorators => ?_
    refine .bind_of (manyWhile_eat_yields avoids_isMemberModifier) fun modifiers hmodifiers => ?_
    exact memberAfter_yields (by simp [*])

/-! ## Classes -/

theorem heritageType_yields : (heritageType r).Yields text r g.top around i pre := by
  refine .first_of (outer_such rfl) fun base hbase => ?_
  refine .bind_of (parseIf_yields typeArguments_yields) fun arguments harguments => ?_
  exact .done (by simp [*])

theorem heritageClauses_yields : (heritageClauses r).YieldsAll text r g amongHeritage i pre := by
  refine manyWhile_yields fun _ => .eat (avoids_isOneOf (by decide)) fun word hword => ?_
  refine .bind_of (commaItems_yields fun _ => heritageType_yields) fun bases hbases => ?_
  have hnodes := allFit_cons.2 ⟨fits_around hword.1, hbases⟩
  refine .done ⟨hnodes.group (by simp) (fun h => ?_) (by simp) (.inl Plain.heritage)
    (by simp [amongHeritage]), by simp⟩
  exact ((keeps_group (by simp)).2 h).mono (around_le_amongHeritage g.depth)

/-- Clauses of heritage stand in a class, whose last part is a brace. -/
theorem classLike_such {kind : NodeKind} {good : Node → Prop} (hkind : kind.hasHeritage)
    (hfront : FitTo text (around g.depth) i j front)
    (hshape : ∀ word rest, IsToken .classKeyword word →
      (front ++ word :: rest).getLast?.any (isToken .closeBrace) →
        kind.HasShape text (front ++ word :: rest) ∧ good (group kind (front ++ word :: rest))) :
    (classLike r kind front).GivesSuch text r g around i j pre Always good := by
  refine .expect rfl fun word hword => ?_
  refine .bind_of (parseIf_yields identifier_yields) fun name hname => ?_
  refine .bind_of optionalTypeParameters_yields fun types htypes => ?_
  refine .bind_of heritageClauses_yields fun heritage hheritage => ?_
  refine .expect rfl fun opening hopening => ?_
  refine .bind_of (manyUntil_yields fun _ => (nested_yields classMember_yields.anywhere))
    fun members hmembers => ?_
  refine .expect rfl fun closing hclosing => ?_
  have hnodes : front ++ word :: name ++ types ++ heritage ++ opening :: members ++ [closing] =
      front ++ word :: (name ++ types ++ heritage ++ opening :: members ++ [closing]) := by simp
  rw [hnodes]
  obtain ⟨hshape, hgood⟩ :=
    hshape word (name ++ types ++ heritage ++ opening :: members ++ [closing])
    hword.2 (by rw [← hnodes, List.getLast?_concat]; exact hclosing.2.2)
  exact .done ⟨⟨fits_ofHeritage hkind (by simp) (by simp [*]) hshape, hgood⟩, by simp⟩

end Untype.Grammar
