-- What the parsers of declarations and statements are made of, and with them
-- the whole grammar.
import Untype.Proofs.Anatomy.Expressions

namespace Untype.Grammar

open Untype.Node Untype.Grammar.Parser

variable {text : Source} {r : Rules} {g : Level} {i j : Nat} {pre : Scanner → Prop}
  {front : List Node}
variable {node : Node} {kind : NodeKind} {second : TokenKind}

/-! ## Before declarations -/

/-- What may stand before a declaration: decorators and keywords. -/
def IsFront (nodes : List Node) : Prop := ∀ node ∈ nodes, node.isClassFront

@[simp]
theorem isFront_nil : IsFront [] := by simp [IsFront]

@[simp]
theorem isFront_cons : IsFront (node :: front) ↔ node.isClassFront ∧ IsFront front := by
  simp [IsFront]

@[simp]
theorem isFront_append {others : List Node} :
    IsFront (front ++ others) ↔ IsFront front ∧ IsFront others := by
  simp [IsFront, or_imp, forall_and]

theorem isClassFront_of_isToken {kind : TokenKind} (h : node.isToken kind)
    (hkind : kind.isModifierWord) : node.isClassFront := by
  have htoken : node.token? = some kind := beq_iff_eq.1 h
  simp [isClassFront, htoken, hkind]

theorem IsFront.isKind_eq_false (h : IsFront front) (hkind : .decorator ≠ kind) :
    ∀ part ∈ front, part.isKind kind = false := by
  intro part hpart
  rcases Bool.or_eq_true_iff.1 (h part hpart) with hdecorator | hword
  · exact isKind_of_ne hdecorator hkind
  · cases part with
    | branch kind' span marks children => cases hword
    | _ => rfl

theorem IsFront.starts (h : IsFront front) {first : Node}
    (hfirst : front = [] → startsStatement kind first) :
    startsStatement kind (front.head?.getD first) := by
  cases front with
  | nil => exact hfirst rfl
  | cons node front =>
    rcases Bool.or_eq_true_iff.1 (isFront_cons.1 h).1 with hdecorator | hword
    · simp [startsStatement, hdecorator]
    · cases node with
      | branch kind' span marks children => cases hword
      | _ => exact startsStatement_of_isLeaf rfl _

attribute [local simp] NodeKind.HasShape NodeKind.isStatement IsFront.starts

/-- Such nodes stand before a declaration, up to this offset. -/
abbrev Fronts (text : Source) (g : Level) (i j : Nat) (front : List Node) : Prop :=
  FitTo text (around g.depth) i j front ∧ IsFront front

/-! ## Parts of imports and exports -/

theorem importAttribute_yields : (importAttribute r).Yields text r g inside i pre := by
  refine .first_of moduleExportName_yields fun name hname => ?_
  refine .expect rfl fun colon hcolon => ?_
  refine .bind_of (inner_yields rfl) fun value hvalue => ?_
  exact .done (by simp [*])

theorem importAttributes_yields : (importAttributes r).YieldsAll text r g inside i pre := by
  refine parseIf_yields (.eat (.of_ask fun s h hkind => by simp [hkind] at h) fun word hword => ?_)
  refine .expect rfl fun opening hopening => ?_
  refine .bind_of (commaList_yields fun _ => importAttribute_yields)
    fun attributes hattributes => ?_
  refine .expect rfl fun closing hclosing => ?_
  exact .done (by simp [*])

theorem specifier_made : (specifier kind).Made text r g i pre Always
    fun node k _ => ∃ nodes, node = group kind nodes ∧ nodes ≠ [] ∧
      FitTo text (inside g.depth) i k nodes := by
  refine .bind_of (eatIf_yields fun s h hkind => by simp [hkind] at h) fun modifier hmodifier => ?_
  refine .first_of moduleExportName_yields fun name hname => .ifTokenIs ?_ (.done ?_)
  · refine .eatAt rfl fun word hword => ?_
    refine .bind_of moduleExportName_yields fun newName hnewName => ?_
    exact .done ⟨_, rfl, by simp [*]⟩
  · exact ⟨_, rfl, by simp [*]⟩

theorem specifier_yields (hkind : NodeKind.Simple kind) :
    (specifier kind).Yields text r g inside i pre := by
  refine specifier_made.allowing fun node k _ => ?_
  rintro ⟨nodes, rfl, hne, hnodes, rfl⟩
  exact ⟨fits_simple hkind hne hnodes, by simp [hne]⟩

theorem specifiers_yields {specifierKind : NodeKind} (hkind : NodeKind.Simple kind)
    (hspecifier : NodeKind.Simple specifierKind) :
    (specifiers kind specifierKind).Yields text r g inside i pre := by
  refine .expect rfl fun opening hopening => ?_
  refine .bind_of (commaList_yields fun _ => (specifier_yields hspecifier)) fun names hnames => ?_
  refine .expect rfl fun closing hclosing => ?_
  exact .done ⟨fits_simple hkind (by simp) (by simp [*]), by simp⟩

theorem moduleSource_yields : (moduleSource r).YieldsSome text r g inside i pre := by
  refine .expect rfl fun word hword => ?_
  refine .expect rfl fun module hmodule => ?_
  refine .bind_of importAttributes_yields fun attributes hattributes => ?_
  exact .done (by simp [*])

theorem Parser.Made.firstAt {α β : Type} {p : Parser α} {next : α → Parser β} {good : α → Prop}
    {stop : α → Nat} {took : β → Prop} {post : β → Nat → Scanner → Prop}
    (hp : p.Made text r g j pre Always fun value k s =>
      (good value ∧ stop value = k) ∧ At second s) (hnext : ∀ value, good value →
      (next value).Made text r g.top (stop value) (At second) Perhaps post) :
    (p >>= next).Made text r g j pre took post := by
  refine .first hp fun value k => .given (fun _ hs => hs.1) fun hvalue => ?_
  obtain ⟨hgood, rfl⟩ := hvalue
  exact (hnext value hgood).knowing fun _ hs => hs.2

theorem eat_before {first : TokenKind} (hfirst : first ≠ .endOfFile)
    (h : ∀ s, pre s → s.kind = first ∧ s.scan.kind = second) :
    eat.Made text r g i pre Always fun node k s =>
      ((node.Fits text (inside g.depth) i ∧ IsToken first node) ∧ node.span.stop = k) ∧
        At second s := by
  refine (eat_taken fun s hs => (h s hs).1 ▸ hfirst).allowing ?_
  rintro _ _ _ ⟨⟨hfits, hstop⟩, s, -, hs, rfl, rfl⟩
  obtain ⟨rfl, hsecond⟩ := h s hs
  exact ⟨⟨⟨hfits _, isToken_leafOf _ s⟩, hstop⟩, hsecond⟩

theorem exportNames_yields : exportNames.Made text r g i pre Always
    fun found k _ => found.1.Fits text (inside g.depth) i ∧ found.1.span.stop = k := by
  refine .ifTokenIs ?_ ?_
  · refine .eatAt rfl fun star hstar => .ifTokenIs ?_ (.done ⟨hstar.1, rfl⟩)
    refine .eatAt rfl fun as has => ?_
    refine .bind_of moduleExportName_yields fun name hname => ?_
    exact .done (by simp [*])
  · exact .first_of (specifiers_yields ⟨by simp, by simp, fun _ _ => trivial⟩
      ⟨by simp, by simp, fun _ _ => trivial⟩) fun names hnames => .tokenIs fun found =>
        .done ⟨hnames, rfl⟩

theorem moduleReference_such : moduleReference.YieldsSuch text r g inside i pre
    (·.isToken .semicolon = false) := by
  refine .ifAsk ?_ entityName_name
  refine .first_of (eatAs_token fun s h => ?_) fun word hword => ?_
  · rw [beq_iff_eq.1 (Bool.and_eq_true_iff.1 h).1]
    rfl
  refine .expect rfl fun opening hopening => ?_
  refine .expect rfl fun module hmodule => ?_
  refine .expect rfl fun closing hclosing => ?_
  exact .done (by simp [*])

theorem importBindings_yields : importBindings.Yields text r g inside i pre := by
  refine .ifTokenIs ?_ (specifiers_yields ⟨by simp, by simp, fun _ _ => trivial⟩
    ⟨by simp, by simp, fun _ _ => trivial⟩)
  refine .eatAt rfl fun star hstar => ?_
  refine .expect rfl fun as has => ?_
  refine .bind_of identifier_yields fun name hname => ?_
  exact .done (by simp [*])

theorem importClause_yields {modifier : List Node}
    (hmodifier : FitTo text (inside g.depth) i j modifier) :
    (importClause modifier).Gives text r g inside i j pre Always := by
  refine .ifAsk ?_ ?_
  · refine .first_of identifier_yields fun name hname => .ifTokenIs ?_ (.done (by simp [*]))
    refine .eatAt rfl fun comma hcomma => ?_
    refine .bind_of importBindings_yields fun bindings hbindings => ?_
    exact .done (by simp [*])
  · refine .first_of importBindings_yields fun bindings hbindings => ?_
    exact .done (by simp [*])

theorem identifier_before (hnext : ∀ s, pre s → s.scan.kind = second) :
    identifier.Made text r g i pre Always fun name k s =>
      ((name.Fits text (inside g.depth) i ∧ IsToken .identifier name) ∧ name.span.stop = k) ∧
        At second s := by
  refine .ifAsk (.takeAs (fun s hs hkind => ?_) fun s hreached hoffset hs => ?_) .fail
  · have hword := isIdentifierOrKeyword_of_isIdentifier hs.2
    rw [hkind] at hword
    cases hword
  · subst hoffset
    exact ⟨⟨⟨fits_leafOf (by decide) hreached (.inr ⟨rfl,
      isIdentifierOrKeyword_of_isIdentifier hs.2⟩), isToken_leafOf _ s⟩, rfl⟩, hnext s hs.1⟩

/-! ## Parts of enums and namespaces -/

theorem enumMember_yields : (enumMember r).Yields text r g inside i pre := by
  refine .first_of propertyName_yields fun name hname => ?_
  refine .bind_of initializer_yields fun value hvalue => ?_
  exact .done (by simp [*])

/-- The node is a leaf, but not the word `export`. -/
abbrev IsPlainLeaf (node : Node) : Prop := node.isLeaf ∧ node.isToken .exportKeyword = false

theorem isPlainLeaf_of_isToken {kind : TokenKind} (h : IsToken kind node)
    (hne : kind ≠ .exportKeyword) : IsPlainLeaf node := ⟨h.1, isToken_of_ne h.2 hne⟩

/-- The name of a namespace is made of tokens, and the first is a name or a string. -/
abbrev IsModuleName (nodes : List Node) : Prop :=
  nodes.head?.any (fun name => name.isToken .identifier || name.isToken .stringLiteral) ∧
    ∀ node ∈ nodes, IsPlainLeaf node

theorem moduleName_such : moduleName.Made text r g i pre Perhaps fun nodes k _ =>
    (AllFit text (inside g.depth) i nodes ∧ IsModuleName nodes) ∧ stopOf i nodes = k := by
  refine .ifTokenIs ?_ ?_
  · refine .eatAt rfl fun name hname => .done ⟨⟨by simp [hname], by simp [hname], ?_⟩, by simp⟩
    exact List.forall_mem_singleton.2 (isPlainLeaf_of_isToken hname.2 (by decide))
  · refine .bind_of identifier_token fun first hfirst => ?_
    refine .loopOf (fun seen => AllFit text (inside g.depth) i seen.reverse ∧
      (∃ others, seen.reverse = first :: others) ∧ ∀ node ∈ seen, IsPlainLeaf node)
      (fun seen => stopOf i seen.reverse)
      ⟨⟨by simp [hfirst], ⟨[], by simp⟩,
        List.forall_mem_singleton.2 (isPlainLeaf_of_isToken hfirst.2 (by decide))⟩, by simp⟩
      fun seen hseen => ?_
    obtain ⟨hfits, ⟨others, hothers⟩, hleaves⟩ := hseen
    refine .ifTokenIs ?_ (.finish ⟨⟨hfits, by simp [hothers, hfirst], by simpa using hleaves⟩, rfl⟩)
    refine .eatAt rfl fun dot hdot => ?_
    refine .bind_of identifier_token fun name hname => ?_
    exact .again ⟨⟨by simp [hfits, hdot, hname], ⟨others ++ [dot, name], by simp [hothers]⟩,
      List.forall_mem_cons.2 ⟨isPlainLeaf_of_isToken hname.2 (by decide), List.forall_mem_cons.2
        ⟨isPlainLeaf_of_isToken hdot.2 (by decide), hleaves⟩⟩⟩, by simp⟩

/-- The statements of a namespace stand between braces. -/
theorem moduleBlock_shape {opening closing : Node} {statements : List Node}
    (hopening : IsToken .openBrace opening)
    (hstatements : ∀ statement ∈ statements, Stands statement)
    (hclosing : IsToken .closeBrace closing) :
    NodeKind.HasShape text .moduleBlock (opening :: statements ++ [closing]) := by
  have hbrace : ∀ {kind : TokenKind} {node : Node}, IsToken kind node → kind ≠ .exportKeyword →
      node.isStatement ∧ node.isToken .exportKeyword = false := by
    intro kind node htoken hne
    refine ⟨?_, isToken_of_ne htoken.2 hne⟩
    cases node with
    | branch kind span marks children => cases htoken.1
    | _ => rfl
  refine ⟨by simp [hopening.2], by simp [List.getLast?_cons, hclosing.2], fun child hchild => ?_⟩
  rcases (by simpa using hchild : child = opening ∨ child ∈ statements ∨ child = closing) with
    rfl | hchild | rfl
  · exact hbrace hopening (by decide)
  · obtain ⟨hstatement, hleaf⟩ := hstatements child hchild
    refine ⟨hstatement, Bool.eq_false_iff.2 fun htoken => ?_⟩
    rw [isLeaf_of_isToken htoken] at hleaf
    cases hleaf
  · exact hbrace hclosing (by decide)

/-! ## Declarations -/

theorem isModifierWord_of_isDeclarationModifier {s : Scanner} (h : s.isDeclarationModifier) :
    s.kind.isModifierWord := by
  unfold Scanner.isDeclarationModifier at h
  split at h
  iterate 5
    rename_i hkind
    rw [hkind]
    decide
  · cases h

theorem declarationModifiers_each :
    (manyWhile (·.isDeclarationModifier) eat).YieldsEach text r g inside i pre
      (·.isClassFront) := by
  refine manyWhile_each fun _ => eat_good fun s hs => ?_
  have hword := isModifierWord_of_isDeclarationModifier hs
  refine ⟨fun hkind => ?_, isClassFront_of_isToken (isToken_leafOf _ s).2 hword⟩
  rw [hkind] at hword
  cases hword

/-- The word of a module and its name. There is none after `global`. -/
structure IsModuleHead (kind : TokenKind) (word : Node) (name : List Node) : Prop where
  word : IsToken kind word
  name : kind = .globalKeyword ∧ name = [] ∨
    (kind = .namespaceKeyword ∨ kind = .moduleKeyword) ∧ IsModuleName name

/-- The body of a module is its last part, if it has one. -/
theorem IsModuleHead.shape {kind : TokenKind} {word : Node} {name rest : List Node}
    (h : IsModuleHead kind word name) (hfront : IsFront front)
    (hrest : ∀ part ∈ rest, part.isToken .exportKeyword = false)
    (hbody : rest.any (isKind .moduleBlock) → ∃ body, rest = [body] ∧ body.isKind .moduleBlock) :
    NodeKind.HasShape text .moduleDeclaration (front ++ word :: name ++ rest) := by
  have hleaves : ∀ part ∈ word :: name, part.isLeaf := by
    refine List.forall_mem_cons.2 ⟨h.word.1, fun part hpart => ?_⟩
    rcases h.name with ⟨-, rfl⟩ | ⟨-, -, hplain⟩
    · cases hpart
    · exact (hplain part hpart).1
  have hhead : ∀ part ∈ front ++ word :: name, part.isKind .moduleBlock = false :=
    List.forall_mem_append.2 ⟨hfront.isKind_eq_false (by decide),
      fun part hpart => isKind_of_isLeaf (hleaves part hpart) _⟩
  refine ⟨⟨front, word, name ++ rest, by simp, hfront, ?_⟩, fun hany => ?_⟩
  · rcases h.name with ⟨rfl, rfl⟩ | ⟨hkind, hfirst, hplain⟩
    · exact ⟨.inl h.word.2, hrest⟩
    · refine ⟨.inr ⟨?_, ?_⟩, List.forall_mem_append.2 ⟨fun part hpart => (hplain part hpart).2,
        hrest⟩⟩
      · rcases hkind with rfl | rfl
        · exact .inl h.word.2
        · exact .inr h.word.2
      · cases name with
        | nil => cases hfirst
        | cons first name => exact hfirst
  · rw [List.any_append, List.any_eq_false.2 (by simpa using hhead), Bool.false_or] at hany
    obtain ⟨body, rfl, hblock⟩ := hbody hany
    exact ⟨_, body, rfl, hblock, hhead⟩

section Declarations

variable (hfront : Fronts text g i j front)

include hfront

theorem variableStatement_such :
    (variableStatement r front).GivesSuch text r g around i j pre Always Stands := by
  refine .first_of variableDeclarations_such fun declared hdeclared => ?_
  refine .bind_of semicolon_yields fun stop hstop => ?_
  have hstart : startsStatement .variableStatement declared := by
    simp [startsStatement, hdeclared.2]
  exact .done (by simp [*])

/-- The body of a function is its last part, if it has one. -/
theorem functionDeclaration_such :
    (functionDeclaration r front).GivesSuch text r g around i j pre Always Stands := by
  refine .expect rfl fun word hword => ?_
  refine .bind_of (optional_each rfl) fun star hstar => ?_
  refine .bind_of (parseIf_each identifier_token) fun name hname => ?_
  refine .bind_of signatureAndBody_ends fun rest hrest => ?_
  have hshape : NodeKind.HasShape text .functionDeclaration (front ++ word :: star ++ name ++
      rest) := by
    intro hblock
    rcases hrest.2.2 with hlacks | hlast
    · obtain ⟨part, hpart, hkind⟩ := List.any_eq_true.1 hblock
      have hnone : part.isKind .block = false := by
        simp only [List.append_assoc, List.cons_append, List.mem_append, List.mem_cons] at hpart
        rcases hpart with hpart | rfl | hpart | hpart | hpart
        · exact hfront.2.isKind_eq_false (by decide) part hpart
        · exact isKind_of_isLeaf hword.2.1 _
        · exact isKind_of_isLeaf (hstar.2 part hpart).1 _
        · exact isKind_of_isLeaf (hname.2 part hpart).1 _
        · exact hlacks part hpart
      rw [hnone] at hkind
      cases hkind
    · rwa [List.getLast?_append_of_ne_nil _ hrest.1]
  exact .done ⟨⟨(fits_group (by simp)).2 ⟨by simp, by simp [*], hshape⟩, by simp [*]⟩,
    by simp [*]⟩

theorem exportEquals_such (h : ∀ s, pre s → s.kind = .exportKeyword ∧ s.scan.kind = .equals) :
    (exportEquals r front).GivesSuch text r g around i j pre Always Stands := by
  refine .firstAt (eat_before (by decide) h) fun word hword => ?_
  refine .eatAt rfl fun equals hequals => ?_
  refine .bind_of (inner_yields rfl) fun value hvalue => ?_
  refine .bind_of semicolon_yields fun stop hstop => ?_
  exact .done (by simp [*])

theorem exportDefault_such (hne : front ≠ []) :
    (exportDefault r front).GivesSuch text r g.top around i j pre Always Stands := by
  refine .first_of (inner_yields rfl) fun value hvalue => ?_
  refine .bind_of semicolon_yields fun stop hstop => ?_
  exact .done (by simp [*])

theorem exportNamespace_such (h : Avoids pre) :
    (exportNamespace front).GivesSuch text r g around i j pre Always Stands := by
  refine .eat h fun word hword => ?_
  refine .expect rfl fun as has => ?_
  refine .expect rfl fun namespaceWord hnamespaceWord => ?_
  refine .bind_of identifier_yields fun name hname => ?_
  refine .bind_of semicolon_yields fun stop hstop => ?_
  exact .done (by simp [*])

theorem exportDeclaration_such (h : Avoids pre) :
    (exportDeclaration r front).GivesSuch text r g around i j pre Always Stands := by
  refine .eat h fun word hword => ?_
  refine .bind_of (optional_yields rfl) fun modifier hmodifier => ?_
  refine .bind_of exportNames_yields fun found hnames => ?_
  obtain ⟨names, hasModule⟩ := found
  dsimp -zeta only at hnames ⊢
  extract_lets afterModule
  have hafterModule : ∀ module, AllFit text (inside g.depth) names.span.stop module →
      (afterModule module).GivesSuch text r g.top around i (stopOf names.span.stop module)
        (fun _ => True) Perhaps Stands := by
    intro module hmodule
    refine .bind_of semicolon_yields fun stop hstop => ?_
    exact .done (by simp [*])
  split
  · exact .bind_of moduleSource_yields fun module hmodule => hafterModule module hmodule.2
  · exact hafterModule [] allFit_nil

theorem importDeclaration_such :
    (importDeclaration r front).GivesSuch text r g around i j pre Always Stands := by
  refine .expect rfl fun word hword => .ifTokenIs ?_ ?_
  · refine .eatAt rfl fun module hmodule => ?_
    refine .bind_of importAttributes_yields fun attributes hattributes => ?_
    refine .bind_of semicolon_yields fun stop hstop => ?_
    exact .done (by simp [*])
  · have htype : ∀ s : Scanner, (s.kind == .typeKeyword && s.isImportTypeModifier) →
        s.kind ≠ .endOfFile ∧ IsToken .typeKeyword (leafOf s.kind s) := by
      intro s hs
      rw [beq_iff_eq.1 (Bool.and_eq_true_iff.1 hs).1]
      exact ⟨by decide, isToken_leafOf _ s⟩
    refine .bind_of (eatIf_each htype) fun modifier hmodifier => ?_
    refine .ifAsk ?_ ?_
    · have hequals : ∀ s : Scanner, True ∧ (s.isIdentifier && s.nextIs .equals) →
          s.scan.kind = .equals := fun s hs => beq_iff_eq.1 (Bool.and_eq_true_iff.1 hs.2).2
      refine .firstAt (identifier_before hequals) fun name hname => ?_
      refine .eatAt rfl fun equals hequals => ?_
      refine .bind_of moduleReference_such fun value hvalue => ?_
      refine .bind_of semicolon_each fun stop hstop => ?_
      have hshape : NodeKind.HasShape text .importEqualsDeclaration
          (front ++ word :: modifier ++ name :: equals :: value :: stop) :=
        ⟨front, word, modifier, name, equals, value, stop, rfl, hfront.2, hword.2.2,
          fun part hpart => (hmodifier.2 part hpart).2, hname.2.2, hequals.2.2, hvalue.2,
          fun part hpart => (hstop.2 part hpart).2⟩
      exact .done ⟨⟨(fits_group (by simp)).2 ⟨by simp, by simp [*], hshape⟩, by simp [*]⟩,
        by simp [*]⟩
    · refine .bind_of (importClause_yields ⟨hmodifier.1, rfl⟩) fun clause hclause => ?_
      refine .bind_of moduleSource_yields fun module hmodule => ?_
      refine .bind_of semicolon_yields fun stop hstop => ?_
      exact .done (by simp [*])

theorem interfaceDeclaration_such (h : Avoids pre) :
    (interfaceDeclaration r front).GivesSuch text r g around i j pre Always Stands := by
  refine .eat h fun word hword => ?_
  refine .bind_of identifier_yields fun name hname => ?_
  refine .bind_of optionalTypeParameters_yields fun types htypes => ?_
  refine .bind_of heritageClauses_yields fun heritage hheritage => ?_
  refine .bind_of typeMembers_yields fun members hmembers => ?_
  exact .done ⟨⟨fits_ofHeritage rfl (by simp) (by simp [*]) trivial, by simp [*]⟩, by simp [*]⟩

theorem typeAlias_such (h : Avoids pre) :
    (typeAlias r front).GivesSuch text r g around i j pre Always Stands := by
  refine .eat h fun word hword => ?_
  refine .bind_of identifier_yields fun name hname => ?_
  refine .bind_of optionalTypeParameters_yields fun types htypes => ?_
  refine .expect rfl fun equals hequals => ?_
  refine .bind_of (inner_yields rfl) fun type htype => ?_
  refine .bind_of semicolon_yields fun stop hstop => ?_
  exact .done (by simp [*])

theorem enumDeclaration_such :
    (enumDeclaration r front).GivesSuch text r g around i j (At .enumKeyword) Always
      Stands := by
  refine .eatAt rfl fun word hword => ?_
  refine .bind_of identifier_token fun name hname => ?_
  refine .expect rfl fun opening hopening => ?_
  refine .bind_of (commaList_yields fun _ => enumMember_yields) fun members hmembers => ?_
  refine .expect rfl fun closing hclosing => ?_
  have hshape : NodeKind.HasShape text .enumDeclaration
      (front ++ word :: name :: opening :: members ++ [closing]) :=
    ⟨front, word, name, opening :: members ++ [closing], by simp, hfront.2, hword.2.2, hname.2.2⟩
  exact .done ⟨⟨(fits_group (by simp)).2 ⟨by simp, by simp [*], hshape⟩, by simp [*]⟩,
    by simp⟩

theorem moduleDeclaration_such {kind : TokenKind}
    (hkind : kind = .namespaceKeyword ∨ kind = .moduleKeyword ∨ kind = .globalKeyword) :
    (moduleDeclaration r front).GivesSuch text r g around i j (At kind) Always Stands := by
  have hisGlobal : ∀ isGlobal s, At kind s ∧ (s.kind == .globalKeyword) = isGlobal →
      isGlobal = (kind == .globalKeyword) := by
    rintro _ s ⟨rfl, rfl⟩
    rfl
  have hend : kind != .endOfFile := by rcases hkind with rfl | rfl | rfl <;> decide
  refine .askKnown fun isGlobal => .given (hisGlobal isGlobal) fun hglobal => ?_
  refine .knowing (.eatAt hend fun word hword => ?_) fun s hs => hs.1
  extract_lets afterName
  have hafterName : ∀ name, AllFit text (inside g.depth) word.span.stop name →
      IsModuleHead kind word name →
      (afterName name).GivesSuch text r g.top around i (stopOf word.span.stop name)
        (fun _ => True) Perhaps Stands := by
    intro name hname hhead
    refine .ifTokenIs ?_ ?_
    · refine .eatAt rfl fun opening hopening => ?_
      refine .bind_of (manyUntil_each fun _ => inner_such rfl) fun statements hstatements => ?_
      refine .expect rfl fun closing hclosing => ?_
      have hbody : (group .moduleBlock (opening :: statements ++ [closing])).Fits text
          (inside g.depth) (stopOf word.span.stop name) :=
        (fits_group (by simp)).2 ⟨by simp, by simp [*],
          moduleBlock_shape hopening.2 hstatements.2 hclosing.2⟩
      exact .done ⟨⟨(fits_group (by simp)).2 ⟨by simp, by simpa [*] using hbody,
        hhead.shape hfront.2 (by simp) (by simp)⟩, by simp [*]⟩, by simp⟩
    · refine .bind_of semicolon_each fun stop hstop => ?_
      have hshape : NodeKind.HasShape text .moduleDeclaration (front ++ word :: name ++ stop) := by
        refine hhead.shape hfront.2
          (fun part hpart => isToken_of_ne (hstop.2 part hpart).2 (by decide)) fun hany => ?_
        obtain ⟨part, hpart, hblock⟩ := List.any_eq_true.1 hany
        cases (isKind_of_isLeaf (hstop.2 part hpart).1 _).symm.trans hblock
      exact .done ⟨⟨(fits_group (by simp)).2 ⟨by simp, by simp [*], hshape⟩, by simp [*]⟩,
        by simp⟩
  split
  · rename_i h
    exact hafterName [] allFit_nil ⟨hword.2, .inl ⟨beq_iff_eq.1 (hglobal ▸ h), rfl⟩⟩
  · rename_i h
    have hne : kind ≠ .globalKeyword := by simpa [hglobal] using h
    exact .bind_of moduleName_such fun name hname => hafterName name hname.1
      ⟨hword.2, .inr ⟨by simpa [hne] using hkind, hname.2⟩⟩

theorem classDeclaration_such :
    (classLike r .classDeclaration front).GivesSuch text r g around i j pre Always Stands :=
  classLike_such rfl hfront.1 fun word rest hword hlast =>
    ⟨⟨⟨front, word, rest, rfl, hword.2, hfront.2⟩, hlast⟩, by simp [*]⟩

theorem plainDeclaration_such :
    (plainDeclaration r front).GivesSuch text r g around i j pre Always Stands := by
  refine .bind_of declarationModifiers_each fun modifiers hmodifiers => ?_
  have hfront : Fronts text g i (stopOf j modifiers) (front ++ modifiers) :=
    ⟨by simp [*], isFront_append.2 ⟨hfront.2, hmodifiers.2⟩⟩
  refine .kind fun kind => ?_
  split
  iterate 5 exact variableStatement_such hfront
  · exact functionDeclaration_such hfront
  · exact classDeclaration_such hfront
  · exact interfaceDeclaration_such hfront (.at rfl)
  · exact typeAlias_such hfront (.at rfl)
  · exact enumDeclaration_such hfront
  iterate 3 exact moduleDeclaration_such hfront (by simp)
  · exact importDeclaration_such hfront
  · exact .fail

theorem exported_such :
    (exported r front).GivesSuch text r g around i j (At .exportKeyword) Always Stands := by
  refine .askKnown fun next => ?_
  have havoids : Avoids fun s => At .exportKeyword s ∧ s.scan = next :=
    fun s hs => Avoids.at rfl s hs.1
  have hplain : (do
      let word ← eat
      plainDeclaration r (front ++ [word]) : Parser Node).GivesSuch text r g around i j
      (fun s => At .exportKeyword s ∧ s.scan = next) Always Stands := by
    refine .knowing (.eatAt rfl fun word hword => .loosely (plainDeclaration_such ?_))
      fun s hs => hs.1
    exact ⟨by simp [*], by simp [hfront.2, isClassFront_of_isToken hword.2.2 rfl]⟩
  split
  · rename_i hkind
    exact exportEquals_such hfront fun s hs => ⟨hs.1, hs.2 ▸ hkind⟩
  iterate 2 exact exportDeclaration_such hfront havoids
  · exact exportNamespace_such hfront havoids
  · rename_i hkind
    refine .firstAt (eat_before (by decide) fun s hs => ⟨hs.1, hs.2 ▸ hkind⟩) fun word hword => ?_
    refine .eatAt rfl fun default hdefault => ?_
    have hfront : Fronts text g i default.span.stop (front ++ [word, default]) :=
      ⟨by simp [*], by simp [hfront.2, isClassFront_of_isToken hword.2.2 rfl,
        isClassFront_of_isToken hdefault.2.2 rfl]⟩
    exact .loosely (.ifAsk (plainDeclaration_such hfront) (exportDefault_such hfront (by simp)))
  · split
    · exact exportDeclaration_such hfront havoids
    · exact hplain
  · exact hplain

end Declarations

theorem declaration_such : (declaration r).YieldsSuch text r g around i pre Stands := by
  refine .bind_of decorators_each fun decorators hdecorators => ?_
  have hfront : Fronts text g i (stopOf i decorators) decorators :=
    ⟨⟨hdecorators.1, rfl⟩, fun node hnode => by simp [isClassFront, hdecorators.2 node hnode]⟩
  exact .ifTokenIs (exported_such hfront) (plainDeclaration_such hfront)

/-! ## Branches and loops -/

theorem condition_yields : (condition r).YieldsSome text r g inside i pre := by
  refine .expect rfl fun opening hopening => ?_
  refine .bind_of (.within (fun _ => ⟨rfl, rfl, fun _ => rfl, fun _ => rfl⟩) (inner_yields rfl))
    fun value hvalue => ?_
  refine .expect rfl fun closing hclosing => ?_
  exact .done (by simp [*])

theorem ifStatement_such (h : Avoids pre) :
    (ifStatement r).YieldsSuch text r g inside i pre Stands := by
  refine .eat h fun word hword => ?_
  refine .bind_of condition_yields fun test htest => ?_
  refine .bind_of (inner_yields rfl) fun yes hyes => .ifTokenIs ?_ (.done (by simp [*]))
  refine .eatAt rfl fun otherwise hotherwise => ?_
  refine .bind_of (inner_yields rfl) fun no hno => ?_
  exact .done (by simp [*])

theorem doStatement_such (h : Avoids pre) :
    (doStatement r).YieldsSuch text r g inside i pre Stands := by
  refine .eat h fun word hword => ?_
  refine .bind_of (inner_yields rfl) fun body hbody => ?_
  refine .expect rfl fun loopWord hloopWord => ?_
  refine .bind_of condition_yields fun test htest => ?_
  refine .bind_of (optional_yields rfl) fun stop hstop => ?_
  exact .done (by simp [*])

theorem guarded_such (hkind : NodeKind.Simple kind) (hstatement : kind.isStatement)
    (h : Avoids pre) : (guarded r kind).YieldsSuch text r g inside i pre Stands := by
  refine .eat h fun word hword => ?_
  refine .bind_of condition_yields fun test htest => ?_
  refine .bind_of (inner_yields rfl) fun body hbody => ?_
  exact .done ⟨⟨fits_simple hkind (by simp) (by simp [*]),
    stands_group.2 ⟨hstatement, by simp [*]⟩⟩, by simp⟩

theorem loopStart_yields : (loopStart r).YieldsAll text r g.top inside i pre := by
  refine .ifTokenIs (.done (by simp)) ?_
  refine .bind_of (.within (fun _ => ⟨rfl, rfl, fun _ => rfl, fun _ => rfl⟩)
    (.ifAsk variableDeclarations_such.plain (inner_yields rfl))) fun start hstart => ?_
  exact .done (by simpa using hstart)

theorem expressionUnless_yields {stop : TokenKind} :
    (expressionUnless r stop).YieldsAll text r g.top inside i pre := by
  refine .ifTokenIs (.done (by simp)) ?_
  exact .bind_of (inner_yields rfl) fun value hvalue => .done (by simp [*])

theorem loopHead_yields : (loopHead r).Made text r g i pre Always
    fun found k _ => ((NodeKind.Simple found.1 ∧ found.1.isStatement) ∧
      AllFit text (inside g.depth) i found.2) ∧ stopOf i found.2 = k := by
  refine .kind fun kind => ?_
  split
  iterate 2
    refine .eatAt rfl fun word hword => ?_
    refine .bind_of (inner_yields rfl) fun value hvalue => ?_
    exact .done ⟨⟨⟨⟨by simp, by simp, fun _ _ => trivial⟩, rfl⟩, by simp [*]⟩, by simp⟩
  · refine .expect rfl fun first hfirst => ?_
    refine .bind_of expressionUnless_yields fun test htest => ?_
    refine .expect rfl fun second hsecond => ?_
    refine .bind_of expressionUnless_yields fun step hstep => ?_
    exact .done ⟨⟨⟨⟨by simp, by simp, fun _ _ => trivial⟩, rfl⟩, by simp [*]⟩, by simp⟩

theorem forStatement_such (h : Avoids pre) :
    (forStatement r).YieldsSuch text r g inside i pre Stands := by
  refine .eat h fun word hword => ?_
  refine .bind_of (optional_yields rfl) fun await hawait => ?_
  refine .expect rfl fun opening hopening => ?_
  refine .bind_of loopStart_yields fun start hstart => ?_
  refine .bind_of loopHead_yields fun found hhead => ?_
  obtain ⟨kind, head⟩ := found
  obtain ⟨hkind, hhead⟩ := hhead
  refine .expect rfl fun closing hclosing => ?_
  refine .bind_of (inner_yields rfl) fun body hbody => ?_
  exact .done ⟨⟨fits_simple hkind.1 (by simp) (by simp_all), stands_group.2 ⟨hkind.2, by simp [*]⟩⟩,
    by simp⟩

/-! ## Jumps -/

theorem breakOrContinue_such (hkind : NodeKind.Simple kind) (hstatement : kind.isStatement)
    (h : Avoids pre) :
    (breakOrContinue kind).YieldsSuch text r g inside i pre Stands := by
  refine .eat h fun word hword => ?_
  refine .bind_of (parseIf_yields identifier_yields) fun target htarget => ?_
  refine .bind_of semicolon_yields fun stop hstop => ?_
  exact .done ⟨⟨fits_simple hkind (by simp) (by simp [*]),
    stands_group.2 ⟨hstatement, by simp [*]⟩⟩, by simp⟩

/-- A word with what stands on its line, and a semicolon. -/
theorem fits_jump {token : TokenKind} {word : Node} {value stop : List Node}
    (hkind : kind = .returnStatement ∧ token = .returnKeyword ∨ kind = .throwStatement ∧
      token = .throwKeyword)
    (hword : word.Fits text (inside g.depth) i ∧ IsToken token word)
    (hvalue : AllFit text (inside g.depth) word.span.stop value ∧ StaysOnLine text word value)
    (hstop : AllFit text (inside g.depth) (stopOf word.span.stop value) stop ∧
      ∀ node ∈ stop, IsToken .semicolon node) :
    (group kind (word :: value ++ stop)).Fits text (inside g.depth) i ∧
      Stands (group kind (word :: value ++ stop)) := by
  have hshape : kind.HasShape text (word :: value ++ stop) := by
    rcases hkind with ⟨rfl, rfl⟩ | ⟨rfl, rfl⟩
    all_goals exact ⟨word, value, stop, rfl, hword.2.2, fun part hpart => (hstop.2 part hpart).2,
      hvalue.2⟩
  obtain ⟨hguarded, hfamilial, hstatement⟩ : kind ∉ NodeKind.guarded ∧ kind ∉ NodeKind.familial ∧
      kind.isStatement := by rcases hkind with ⟨rfl, -⟩ | ⟨rfl, -⟩ <;> simp
  exact ⟨(fits_group ⟨hguarded, hfamilial⟩).2 ⟨by simp, by simp [*], hshape⟩,
    stands_group.2 ⟨hstatement, by simp [*]⟩⟩

/-- What is returned starts on the line of the word. -/
theorem returnStatement_such : (returnStatement r).YieldsSuch text r g inside i
    (At .returnKeyword) Stands := by
  refine .eatWord rfl fun word hword => ?_
  have hvalue : (parseIf (fun s => !s.canEndStatement) (r .expression)).Made text r g.top
      word.span.stop (fun t => t.afterLineBreak = false → word.Unbroken text) Perhaps
        fun value k _ =>
        (AllFit text (inside g.depth) word.span.stop value ∧ StaysOnLine text word value) ∧
          stopOf word.span.stop value = k := by
    refine .ifAsk (.given (fun s hs => hs.1 ?_) fun hline => ?_) (.done (by simp [StaysOnLine]))
    · have hgo := hs.2
      simp only [Scanner.canEndStatement, Bool.not_or, Bool.and_eq_true, Bool.not_eq_true'] at hgo
      exact hgo.2
    · refine .bind_of (inner_such rfl) fun value hvalue => .done ⟨⟨by simp [hvalue], ?_⟩, by simp⟩
      exact .inr ⟨value, rfl, hvalue.2, hline⟩
  refine .bind_of hvalue fun value hvalue => ?_
  refine .bind_of semicolon_each fun stop hstop => ?_
  exact .done ⟨fits_jump (.inl ⟨rfl, rfl⟩) hword hvalue hstop, by simp⟩

theorem throwStatement_such : (throwStatement r).YieldsSuch text r g inside i
    (At .throwKeyword) Stands := by
  refine .eatWord rfl fun word hword => .askKnown fun found => ?_
  split
  · exact .fail
  · rename_i hline
    refine .given (fun s hs => hs.1 (hs.2.trans (by simpa using hline))) fun hline => ?_
    refine .bind_of (inner_such rfl) fun value hvalue => ?_
    refine .bind_of semicolon_each fun stop hstop => .done ⟨?_, by simp⟩
    have hstays : AllFit text (inside g.depth) word.span.stop [value] ∧
        StaysOnLine text word [value] :=
      ⟨by simp [hvalue], .inr ⟨value, rfl, hvalue.2, hline⟩⟩
    exact fits_jump (.inr ⟨rfl, rfl⟩) hword hstays hstop

/-! ## Clauses -/

theorem caseClause_yields : (caseClause r).Yields text r g inside i pre := by
  refine .kind fun kind => ?_
  split
  · refine .eatAt rfl fun word hword => ?_
    refine .bind_of (inner_yields rfl) fun value hvalue => ?_
    refine .expect rfl fun colon hcolon => ?_
    refine .bind_of (manyUntil_yields fun _ => inner_yields rfl) fun statements hstatements => ?_
    exact .done (by simp [*])
  · refine .eatAt rfl fun word hword => ?_
    refine .expect rfl fun colon hcolon => ?_
    refine .bind_of (manyUntil_yields fun _ => inner_yields rfl) fun statements hstatements => ?_
    exact .done (by simp [*])
  · exact .failExpected

theorem switchStatement_such (h : Avoids pre) :
    (switchStatement r).YieldsSuch text r g inside i pre Stands := by
  refine .eat h fun word hword => ?_
  refine .bind_of condition_yields fun subject hsubject => ?_
  refine .expect rfl fun opening hopening => ?_
  refine .bind_of (manyUntil_yields fun _ => caseClause_yields) fun clauses hclauses => ?_
  refine .expect rfl fun closing hclosing => ?_
  exact .done (by simp [List.getLast?_cons, *])

theorem catchClause_such (h : Avoids pre) : (catchClause r).YieldsSuch text r g around i pre
    (·.isKind .catchClause) := by
  refine .eat h fun word hword => .askKnown fun found => ?_
  extract_lets afterBinding
  have hafterBinding : ∀ binding, AllFit text (inside g.depth) word.span.stop binding →
      (afterBinding binding).GivesSuch text r g.top around i (stopOf word.span.stop binding)
        (fun _ => True) Perhaps (·.isKind .catchClause) := by
    intro binding hbinding
    exact .bind_of block_such fun body hbody => .done (by simp [List.getLast?_cons, *])
  cases found with
  | true =>
    refine .eat (.of_token rfl) fun opening hopening => ?_
    refine .bind_of variableDeclaration_yields fun name hname => ?_
    refine .expect rfl fun closing hclosing => ?_
    exact hafterBinding [opening, name, closing] (by simp [*])
  | false => exact (hafterBinding [] allFit_nil).knowing fun _ _ => trivial

/-- The last part of a `try` statement is a block or the clause that catches. -/
theorem tryStatement_such (h : Avoids pre) :
    (tryStatement r).YieldsSuch text r g around i pre Stands := by
  refine .eat h fun word hword => ?_
  refine .bind_of block_such fun body hbody => ?_
  refine .bind_of (parseIf_each (catchClause_such (.of_token rfl))) fun handler hhandler => ?_
  refine .askKnown fun found => ?_
  extract_lets afterCleanup
  have hafterCleanup : ∀ cleanup,
      AllFit text (around g.depth) (stopOf body.span.stop handler) cleanup →
      (∀ node ∈ cleanup.getLast?, node.isKind .block) →
      (afterCleanup cleanup).GivesSuch text r g.top around i
        (stopOf (stopOf body.span.stop handler) cleanup) (fun _ => True) Perhaps Stands := by
    intro cleanup hcleanup hlast
    dsimp only [afterCleanup]
    split
    · exact .failExpected
    · rename_i hsome
      have hshape : NodeKind.HasShape text .tryStatement (word :: body :: handler ++ cleanup) := by
        rcases cleanup.eq_nil_or_concat with rfl | ⟨init, last, rfl⟩
        · rcases handler.eq_nil_or_concat with rfl | ⟨init, last, rfl⟩
          · simp at hsome
          · simp [List.getLast?_cons, hhandler.2 last (by simp)]
        · simp [List.getLast?_cons, hlast last (by simp)]
      exact .done ⟨⟨(fits_group (by simp)).2 ⟨by simp, by simp [*], hshape⟩, by simp [*]⟩,
        by simp⟩
  cases found with
  | true =>
    refine .eat (.of_token rfl) fun finally' hfinally => ?_
    exact .bind_of block_such fun last hlast =>
      hafterCleanup [finally', last] (by simp [*]) (by simp [hlast.2.1])
  | false => exact (hafterCleanup [] allFit_nil (by simp)).knowing fun _ _ => trivial

/-! ## Statements -/

theorem expressionStatement_such (hrank : Production.expression.rank < g.rank)
    (h : ∀ s, pre s → s.kind ≠ .openBrace ∧ s.startsDeclaration = false) :
    (expressionStatement r).YieldsSuch text r g inside i pre Stands := by
  have hvalue : (r .expression).YieldsSuch text r g inside i pre fun value =>
      IsOperand value ∧ value.firstLeaf.StartsExpression text :=
    .rule hrank fun start _ _ hreached hstart hleads hnode hbrings => ⟨⟨hnode, hbrings.1,
      hleads.startsExpression hreached.reached (h start hstart).1 (h start hstart).2⟩, rfl⟩
  refine .first_of hvalue fun value hvalue => ?_
  refine .bind_of semicolon_each fun stop hstop => ?_
  have hstart : startsStatement .expressionStatement value := by simp [startsStatement, hvalue.2.1]
  refine .done ⟨⟨(fits_group (by simp)).2 ⟨by simp, by simp [*], value, stop, rfl,
    fun part hpart => (hstop.2 part hpart).2, hvalue.2⟩, by simp [*]⟩, by simp⟩

theorem labeledStatement_such : (labeledStatement r).YieldsSuch text r g inside i pre Stands := by
  refine .first_of identifier_token fun name hname => ?_
  refine .expect rfl fun colon hcolon => ?_
  refine .bind_of (inner_yields rfl) fun body hbody => ?_
  exact .done (by simp [*])

theorem debuggerStatement_such (h : Avoids pre) :
    debuggerStatement.YieldsSuch text r g inside i pre Stands := by
  refine .eat h fun word hword => ?_
  refine .bind_of semicolon_yields fun stop hstop => ?_
  exact .done (by simp [*])

theorem otherStatement_such (hrank : Production.expression.rank < g.rank)
    (hblock : ∀ s, pre s → s.kind ≠ .openBrace) :
    (otherStatement r).YieldsSuch text r g around i pre Stands := by
  refine .askKnown fun found => ?_
  cases found with
  | true => exact declaration_such
  | false =>
    refine .ifAsk (.outwardSuch labeledStatement_such) (.outwardSuch ?_)
    exact expressionStatement_such hrank fun s hs => ⟨hblock s hs.1, hs.2⟩

theorem statement_such (hrank : Production.expression.rank < g.rank) :
    (statement r).YieldsSuch text r g around i pre Stands := by
  have hnone : Fronts text g i i [] := ⟨by simp, isFront_nil⟩
  refine .kind fun kind => ?_
  split
  · exact .outwardSuch (single_such ⟨by simp, by simp, fun _ _ => trivial⟩
      (fun _ h => stands_group.2 ⟨rfl, by simp [h]⟩) (.at rfl))
  · exact block_such.allowing fun _ _ _ => And.imp_left (And.imp_right And.right)
  · exact variableStatement_such hnone
  · refine .ifAsk (variableStatement_such hnone) (otherStatement_such hrank fun s hs => ?_)
    rw [(hs : s.kind = .letKeyword)]
    exact nofun
  · exact functionDeclaration_such hnone
  · exact classDeclaration_such hnone
  · exact .outwardSuch (ifStatement_such (.at rfl))
  · exact .outwardSuch (doStatement_such (.at rfl))
  iterate 2
    exact .outwardSuch (guarded_such ⟨by simp, by simp, fun _ _ => trivial⟩ rfl (.at rfl))
  · exact .outwardSuch (forStatement_such (.at rfl))
  iterate 2
    exact .outwardSuch (breakOrContinue_such ⟨by simp, by simp, fun _ _ => trivial⟩ rfl
      (.at rfl))
  · exact .outwardSuch returnStatement_such
  · exact .outwardSuch (switchStatement_such (.at rfl))
  · exact .outwardSuch throwStatement_such
  · exact tryStatement_such (.at rfl)
  · exact .outwardSuch (debuggerStatement_such (.at rfl))
  · rename_i hblock _ _ _ _ _ _ _ _ _ _ _ _ _ _ _ _
    exact otherStatement_such hrank fun s hs hkind => hblock (hs.symm.trans hkind)

/-! ## The whole grammar -/

theorem Parser.Made.brings {production : Production} {p : Parser Node}
    {limit : Nat → NodeKind → Nat} (h : p.YieldsSuch text r g limit i pre production.Such)
    (hproduction : ∀ strength, production ≠ .binary strength) :
    p.Made text r g i pre Always fun node k s =>
      (node.Fits text (limit g.depth) i ∧ node.span.stop = k) ∧ production.Brings g.noIn node s :=
  h.allowing fun _ _ _ hnode => ⟨⟨hnode.1.1, hnode.2⟩, hnode.1.2,
    fun strength hbinary => absurd hbinary (hproduction strength)⟩

/-- With fuel for one more step each production does its part, if those below it do theirs. -/
theorem rules_bring {depth : Nat} {noIn : Bool} (fuel : Nat) (production : Production) :
    (rules (fuel + 1) production).Made text (rules fuel) ⟨production.rank, depth, noIn⟩ i
      (fun _ => True) Always fun node k s =>
        (node.Fits text (production.limit depth) i ∧ node.span.stop = k) ∧
        production.Brings noIn node s := by
  cases production with
  | statement =>
    exact .brings (nested_such (statement_such (Nat.lt_succ_self _)).anywhereSuch) (by simp)
  | expression => exact .brings (expression_such (Nat.lt_succ_self _)) (by simp)
  | assignment => exact .brings (nested_such (assignment_such (Nat.lt_succ_self _))) (by simp)
  | binary strength =>
    refine .allowing (binary_climbs (Nat.lt_succ_self _)) fun node k s h =>
      ⟨h.1.1, h.1.2.operand, ?_⟩
    rintro _ ⟨rfl⟩
    exact ⟨h.1.2.tight, h.2⟩
  | unaryOperand =>
    exact .brings (nested_such (simpleUnary_such (Nat.lt_succ_self _)).anywhereSuch) (by simp)
  | leftHandSide => exact .brings (leftHandSide_such (Nat.lt_succ_self _)) (by simp)
  | primary => exact .brings (primary_such Nat.one_pos) (by simp)
  | bindingName =>
    refine .brings (bindingName_yields.allowing fun _ _ _ => And.imp_left fun h => ⟨h, trivial⟩)
      (by simp)
  | type => exact .brings (nested_such anyType_such.anywhereSuch) (by simp)
  | typeOperator =>
    exact .brings (operatorType_such.allowing fun _ _ _ => And.imp_left fun h => ⟨h.1, trivial⟩)
      (by simp)
  | jsxElement inExpression => exact .brings (nested_such jsxElement_such.anywhereSuch) (by simp)

end Untype.Grammar
