-- How deep constructs lie in each other: those that open a level within the
-- limit, and patterns, which open none, without one.
import Untype.Proofs.Progress.Files

namespace Untype

open Untype.Node Untype.Grammar Untype.Grammar.Parser

/-! ## Brackets -/

/-- Array patterns in each other, before what follows them: one with so many inside. -/
def nestedPattern : Nat → List Char → List Char
  | 0, rest => '[' :: ']' :: rest
  | n + 1, rest => '[' :: nestedPattern n (']' :: rest)

/-- A declaration of such patterns. -/
def nestedDeclaration (n : Nat) : String :=
  String.ofList ('l' :: 'e' :: 't' :: nestedPattern n [])

theorem length_nestedPattern (n : Nat) (rest : List Char) :
    (nestedPattern n rest).length = 2 * n + 2 + rest.length := by
  induction n generalizing rest with
  | zero =>
    simp only [nestedPattern, List.length_cons]
    omega
  | succ n ih =>
    simp only [nestedPattern, List.length_cons, ih]
    omega

theorem lt_length_nestedDeclaration (n : Nat) : n < (nestedDeclaration n).length := by
  rw [nestedDeclaration, String.length_ofList]
  simp only [List.length_cons, length_nestedPattern]
  omega

namespace Scanner

variable {s : Scanner} {rest : List Char}
variable {fuel : Nat} {state : State}

theorem scan_openBracket (h : s.here.rest = '[' :: rest) :
    s.scan.kind = .openBracket ∧ s.scan.here.rest = rest := by
  obtain ⟨full, start, ⟨offset, cs⟩, kind, flags, findings⟩ := s
  obtain rfl : cs = '[' :: rest := h
  exact ⟨rfl, rfl⟩

theorem scan_closeBracket (h : s.here.rest = ']' :: rest) :
    s.scan.kind = .closeBracket ∧ s.scan.here.rest = rest := by
  obtain ⟨full, start, ⟨offset, cs⟩, kind, flags, findings⟩ := s
  obtain rfl : cs = ']' :: rest := h
  exact ⟨rfl, rfl⟩

theorem scan_nothing (h : s.here.rest = []) : s.scan.kind = .endOfFile := by
  obtain ⟨full, start, ⟨offset, cs⟩, kind, flags, findings⟩ := s
  obtain rfl : cs = [] := h
  rfl

/-- The word ends at the bracket. -/
theorem scan_let (h : s.here = ⟨0, 'l' :: 'e' :: 't' :: '[' :: rest⟩) :
    s.scan.kind = .letKeyword ∧ s.scan.here.rest = '[' :: rest := by
  have hword : (TokenKind.ofKeyword? (String.ofList ['l', 'e', 't'])).getD .identifier =
      .letKeyword := by decide +kernel
  have hread : readToken {} s.here = readName {} s.here := by
    rw [h]
    rfl
  have hname : nameEnd s.here = ⟨⟨3, '[' :: rest⟩, false, []⟩ := by
    rw [h]
    rfl
  have htrivia : triviaEnd .between {} s.here.offset s.here.rest = ⟨s.here, {}, []⟩ := by
    rw [h]
    rfl
  simp only [scan, htrivia, hread, readName, hname]
  rw [h]
  exact ⟨hword, rfl⟩

end Scanner

/-! ## Reading them -/

/-- A way down from the node meets so many array patterns. -/
def Node.NestsPatterns (node : Node) (count : Nat) : Prop :=
  ∃ way, node.WayDown way ∧ way.countP (isKind .arrayBindingPattern) = count

theorem Node.NestsPatterns.below {node child : Node} {count : Nat} (h : child.NestsPatterns count)
    (hchild : child ∈ node.children) :
    node.NestsPatterns (count + if node.isKind .arrayBindingPattern then 1 else 0) := by
  obtain ⟨way, hway, hcount⟩ := h
  refine ⟨node :: way, wayDown_iff.2 (.inr ⟨child, hchild, way, hway, rfl⟩), ?_⟩
  rw [List.countP_cons, hcount]

namespace Grammar

variable {context : Context} {s : Scanner} {memory : List Nat} {rest : List Char} {r : Rules}

/-- The scanner is at the token that these characters start with. -/
def State.Before (memory : List Nat) (rest : List Char) (state : State) : Prop :=
  ∃ s : Scanner, s.here.rest = rest ∧ state = ⟨s.scan, memory⟩

/-- The productions that open a level. -/
def Production.opensLevel : Production → Bool
  | .statement | .assignment | .unaryOperand | .type | .jsxElement _ => true
  | _ => false

theorem rules_tooDeep {production : Production}
    (hopens : production.opensLevel) (hdepth : maxDepth ≤ context.depth) :
    rules (fuel + 1) production context state =
      .failed ⟨state.scanner.start.offset, .tooDeep⟩ state := by
  cases production with
  | statement | assignment | unaryOperand | type | jsxElement _ => exact if_pos hdepth
  | expression | binary _ | leftHandSide | primary | bindingName | typeOperator => cases hopens

theorem bindingName_succeeds {good : List Node → Prop} (hkind : s.kind = .openBracket)
    (h : (sparseList .closeBracket (arrayBinding r)).Succeeds context ⟨s.scan, memory⟩
      fun nodes state => good nodes ∧ state.Before memory (']' :: rest)) :
    (bindingName r).Succeeds context ⟨s, memory⟩ fun node state =>
      (∃ opening nodes closing, good nodes ∧
        node = group .arrayBindingPattern (opening :: nodes ++ [closing])) ∧
      state.Before memory rest := by
  refine .kind ?_
  rw [hkind]
  refine .eat (.bind (h.mono ?_))
  rintro nodes _ ⟨hnodes, t, ht, rfl⟩
  obtain ⟨hclosing, hrest⟩ := t.scan_closeBracket ht
  exact .expect hclosing (.pure ⟨⟨_, nodes, _, hnodes, rfl⟩, t.scan, hrest, rfl⟩)

/-- An element that is a pattern, before the closing bracket. -/
theorem sparseList_succeeds {good : Node → Prop} (hbudget : 0 < context.budget)
    (hkind : s.kind = .openBracket)
    (h : (r .bindingName).Succeeds context ⟨s, memory⟩
      fun node state => good node ∧ state.Before memory (']' :: rest)) :
    (sparseList .closeBracket (arrayBinding r)).Succeeds context ⟨s, memory⟩
      fun nodes state => (∃ node, good node ∧ nodes = [group .bindingElement [node]]) ∧
        state.Before memory (']' :: rest) := by
  refine .askContext (.finish hbudget (.tokenIs ?_))
  rw [hkind, if_neg (by decide)]
  refine .tokenIs ?_
  rw [hkind, if_neg (by decide)]
  refine .bind ?_
  refine .bind ⟨[], _, none_of_kind_ne (by rw [hkind]; decide), ?_⟩
  refine .bind (h.mono ?_)
  rintro node _ ⟨hnode, t, ht, rfl⟩
  have hclosing := (t.scan_closeBracket ht).1
  refine .bind ⟨[], _, none_of_kind_ne (by rw [hclosing]; decide), .pure (.tokenIs ?_)⟩
  rw [hclosing, if_neg (by decide)]
  exact .pure ⟨_, rfl, ⟨node, hnode, rfl⟩, t, ht, rfl⟩

theorem scan_nestedPattern {n : Nat} (h : s.here.rest = nestedPattern n rest) :
    s.scan.kind = .openBracket := by
  cases n with
  | zero | succ n => exact (s.scan_openBracket h).1

/-- Patterns in each other are read, however many: each takes one unit of fuel and no level. -/
theorem bindingName_nests (n : Nat) (hfuel : n < fuel) (hbudget : 0 < context.budget)
    (h : s.here.rest = nestedPattern n rest) :
    (rules fuel .bindingName).Succeeds context ⟨s.scan, memory⟩
      fun node state => node.NestsPatterns (n + 1) ∧ state.Before memory rest := by
  obtain ⟨fuel, rfl⟩ : ∃ k, fuel = k + 1 := ⟨fuel - 1, by omega⟩
  induction n generalizing fuel s rest with
  | zero =>
    obtain ⟨hkind, hrest⟩ := s.scan_openBracket h
    have hlist : (sparseList .closeBracket (arrayBinding (rules fuel))).Succeeds context
        ⟨s.scan.scan, memory⟩ fun nodes state => nodes = [] ∧
          state.Before memory (']' :: rest) := by
      refine .askContext (.finish hbudget (.tokenIs ?_))
      rw [(s.scan.scan_closeBracket hrest).1, if_pos (by decide)]
      exact .pure ⟨_, rfl, rfl, s.scan, hrest, rfl⟩
    refine (bindingName_succeeds hkind hlist).mono ?_
    rintro _ state ⟨⟨opening, nodes, closing, -, rfl⟩, hstate⟩
    exact ⟨⟨[_], wayDown_iff.2 (.inl rfl), rfl⟩, hstate⟩
  | succ n ih =>
    obtain ⟨hkind, hrest⟩ := s.scan_openBracket h
    obtain ⟨fuel, rfl⟩ : ∃ k, fuel = k + 1 := ⟨fuel - 1, by omega⟩
    have hinner := ih hrest fuel (by omega)
    have hlist := sparseList_succeeds hbudget (scan_nestedPattern hrest) hinner
    refine (bindingName_succeeds hkind hlist).mono ?_
    rintro _ state ⟨⟨opening, _, closing, ⟨node, hnode, rfl⟩, rfl⟩, hstate⟩
    have helement : (group .bindingElement [node]).NestsPatterns (n + 1) :=
      hnode.below (by simp [group, children])
    exact ⟨helement.below (by simp [group, children]), hstate⟩

/-- A declaration of patterns in each other is read as one. -/
theorem variableStatement_nests (n : Nat) (hfuel : n < fuel)
    (hbudget : 0 < context.budget) (hkind : s.kind = .letKeyword)
    (h : s.here.rest = nestedPattern n []) :
    (variableStatement (rules fuel) []).Succeeds context ⟨s, memory⟩
      fun node state => node.NestsPatterns (n + 1) ∧ state.Before memory [] := by
  refine .bind (.bind ⟨[], _, none_of_kind_ne (by rw [hkind]; decide), .ask ?_⟩)
  rw [if_pos (by simp [Scanner.isOneOf, hkind])]
  refine .eat (.bind (.askContext (.finish hbudget (.bind (.bind ?_)))))
  refine (bindingName_nests n hfuel hbudget h).mono ?_
  rintro node _ ⟨hnode, t, ht, rfl⟩
  have hend := t.scan_nothing ht
  have hmark : eatIf (fun s => s.kind == .exclamation && !s.afterLineBreak) context
      ⟨t.scan, memory⟩ = .done [] ⟨t.scan, memory⟩ := by
    simp [eatIf, ask, Bind.bind, andThen, hend, Pure.pure, succeed]
  have hstop : semicolon context ⟨t.scan, memory⟩ = .done [] ⟨t.scan, memory⟩ := by
    simp [semicolon, ask, Bind.bind, andThen, hend, Pure.pure, succeed]
  refine .bind ⟨[], _, hmark, .bind ⟨[], _, parseIf_none (by simp [hend]), ?_⟩⟩
  refine .bind ⟨[], _, none_of_kind_ne (by simp [hend]), .pure (.tokenIs ?_)⟩
  rw [hend, if_neg (by decide)]
  refine .pure ⟨_, rfl, .pure (.bind ⟨[], _, hstop, .pure ⟨?_, t, ht, rfl⟩⟩)⟩
  have hdeclaration : (group .variableDeclaration [node]).NestsPatterns (n + 1) :=
    hnode.below (by simp [group, children])
  have hlist : (group .variableDeclarationList
      [leafOf s.kind s, group .variableDeclaration [node]]).NestsPatterns (n + 1) :=
    hdeclaration.below (by simp [group, children])
  exact hlist.below (by simp [group, children])

theorem statement_nests (n : Nat) (hfuel : n + 1 < fuel) (hbudget : 0 < context.budget)
    (hdepth : context.depth < maxDepth) (hkind : s.kind = .letKeyword)
    (h : s.here.rest = nestedPattern n []) :
    (rules fuel .statement).Succeeds context ⟨s, memory⟩
      fun node state => node.NestsPatterns (n + 1) ∧ state.Before memory [] := by
  obtain ⟨fuel, rfl⟩ : ∃ k, fuel = k + 1 := ⟨fuel - 1, by omega⟩
  refine .nested hdepth (.kind ?_)
  rw [hkind]
  refine .ask ?_
  rw [if_pos (by simp [Scanner.isLetDeclaration, Scanner.startsBinding, scan_nestedPattern h])]
  exact variableStatement_nests n (by omega) hbudget hkind h

/-- A file of one such declaration is read to its end. -/
theorem sourceFile_nests (n : Nat) (hfuel : n + 1 < fuel)
    (hbudget : 1 < context.budget) (hdepth : context.depth < maxDepth) :
    (sourceFile (rules fuel)).Succeeds context ⟨Scanner.ofText (nestedDeclaration n), []⟩
      fun root _ => root.NestsPatterns (n + 1) := by
  obtain ⟨rest, hrest⟩ : ∃ rest, nestedPattern n [] = '[' :: rest := by
    cases n <;> exact ⟨_, rfl⟩
  have hstart : (Scanner.ofText (nestedDeclaration n)).here =
      ⟨0, 'l' :: 'e' :: 't' :: '[' :: rest⟩ := by
    rw [← hrest]
    exact congrArg _ String.toList_ofList
  obtain ⟨hkind, hhere⟩ := Scanner.scan_let hstart
  rw [← hrest] at hhere
  obtain ⟨budget, hbudget'⟩ : ∃ k, context.budget = k + 2 := ⟨context.budget - 2, by omega⟩
  refine .moveBy (.bind (.askContext ?_))
  rw [hbudget']
  refine .again (.ask ?_)
  rw [hkind, if_neg (by decide)]
  refine .bind ((statement_nests n hfuel (by omega) hdepth hkind hhere).mono ?_)
  rintro node _ ⟨hnode, t, ht, rfl⟩
  refine .pure ⟨[node], rfl, .finish (Nat.succ_pos _) (.ask ?_)⟩
  rw [t.scan_nothing ht, if_pos (by decide)]
  exact .pure ⟨_, rfl, .eat (.pure (hnode.below (by simp [group, children])))⟩

end Grammar

namespace SyntaxTree

/-! ## Within the limit and beyond -/

/-- In the tree of a text no way down meets more than so many constructs of one kind that open a
level, and where so many levels are open no production opens another: it fails and says so. -/
theorem parseAs_nests_within_limit {variant : Variant} {file text : String} {tree : SyntaxTree}
    (h : parseAs variant file text = .ok tree) :
    (∀ way, tree.root.WayDown way → ∀ kind ∈ NodeKind.guarded,
      way.countP (isKind kind) ≤ maxDepth) ∧
    (∀ fuel production context state, production.opensLevel = true → maxDepth ≤ context.depth →
      rules (fuel + 1) production context state =
        .failed ⟨state.scanner.start.offset, .tooDeep⟩ state) ∧
    Cause.tooDeep.message = "Maximum nesting depth exceeded." := by
  refine ⟨?_, fun fuel production context state => rules_tooDeep, rfl⟩
  obtain ⟨root, state, rfl, hdone⟩ := exists_of_parseAs h
  intro way hway kind hkind
  refine Nat.le_trans (sourceFile_keeps hdone way hway kind hkind) ?_
  unfold inside
  split <;> omega

/-- All of these kinds in one expression. -/
theorem parseAs_nests_within_limit_mixed :
    ∃ tree, parseAs .jsx "a.tsx"
        "([\x7ba: () => \x7b f<\x7bx: [(T)]\x7d>(<b></b>) \x7d\x7d])" = .ok tree ∧
      ∀ way, tree.root.WayDown way → ∀ kind ∈ NodeKind.guarded,
        way.countP (isKind kind) ≤ maxDepth :=
  exists_parsed (by decide +kernel) fun _ hparse => (parseAs_nests_within_limit hparse).1

/-- However many: some text has a tree with so many array patterns on one way down. -/
theorem patterns_nest_without_limit (n : Nat) :
    ∃ tree way, parseAs .standard "a.ts" (nestedDeclaration n) = .ok tree ∧
      tree.root.WayDown way ∧ way.countP (isKind .arrayBindingPattern) = n + 1 := by
  have hread : (sourceFile (rules (recursionBudget (nestedDeclaration n)))).Succeeds
      (Context.ofText .standard (nestedDeclaration n)) ⟨Scanner.ofText (nestedDeclaration n), []⟩
      fun root _ => root.NestsPatterns (n + 1) := by
    refine sourceFile_nests n ?_ ?_ (by simp [Context.ofText, maxDepth])
    · have := lt_length_nestedDeclaration n
      simp only [recursionBudget, loopBudget]
      omega
    · simp [Context.ofText, loopBudget]
  obtain ⟨root, state, hdone, way, hway, hcount⟩ := hread
  refine ⟨⟨"a.ts", nestedDeclaration n, .standard, root, state.scanner.findings⟩, way, ?_, hway,
    hcount⟩
  simp [parseAs, parseFrom, hdone]

/-- Patterns go beyond the limit and are read all the same. -/
theorem parseAs_nests_patterns_beyond_limit :
    ∃ tree way, parseAs .standard "a.ts" (nestedDeclaration maxDepth) = .ok tree ∧
      tree.root.WayDown way ∧ maxDepth < way.countP (isKind .arrayBindingPattern) := by
  obtain ⟨tree, way, htree, hway, hcount⟩ := patterns_nest_without_limit maxDepth
  exact ⟨tree, way, htree, hway, by rw [hcount]; exact Nat.lt_succ_self _⟩

end SyntaxTree

end Untype
