-- Every text is read to an answer, and what it nests is bounded.
import Untype.Proofs.Progress.Courses
import Untype.Proofs.Progress.Items

namespace Untype

open Untype.Node Untype.Grammar Untype.Grammar.Parser

namespace Grammar

variable {text : String}
variable {fuel : Nat} {context : Context}

theorem sourceFile_answers (hfuel : topRank * (text.length + 1) ≤ fuel)
    (hbudget : text.length < context.budget) (htrust : context.trust ≠ .doubted) :
    sourceFile (rules fuel) context ⟨Scanner.ofText text, []⟩ ≠ .stalled := by
  have hahead : (Scanner.ofText text).scan.ahead = text.length := String.length_toList
  have hread := (statements_stand fuel).meets context ⟨(Scanner.ofText text).scan, []⟩
    ⟨rfl, rfl, .of_reached .start, rfl, trivial⟩ (rules_serve _ fuel (by rw [hahead]; exact hfuel))
    ⟨hahead.symm ▸ hbudget, htrust⟩
  simp only [sourceFile, Bind.bind, andThen, Parser.moveBy]
  cases hreply : manyUntil (·.kind == .endOfFile) (rules fuel .statement) context
      ⟨(Scanner.ofText text).scan, []⟩ with
  | stalled => simp [hreply, Reply.Meets] at hread
  | failed failure stop => simp
  | done statements state => simp [Parser.eat, Pure.pure, succeed]

theorem sourceFile_keeps {root : Node} {state' : State}
    (h : sourceFile (rules fuel) context ⟨Scanner.ofText text, []⟩ = .done root state') :
    root.Keeps (inside context.depth) := by
  obtain ⟨statements, stop, rfl, -, hstatements, -⟩ := sourceFile_fits h
  refine (keeps_group (by simp)).2 fun node hnode => ?_
  rcases List.mem_append.1 hnode with hnode | hnode
  · exact ((allFit_iff.1 hstatements).1 node hnode).keeps
  · exact List.mem_singleton.1 hnode ▸ keeps_leaf

theorem sourceFile_answers_ofText {budget : Nat} (variant : Variant) (text : String)
    (hfuel : recursionBudget text ≤ fuel) (hbudget : loopBudget text ≤ budget) :
    sourceFile (rules fuel) { Context.ofText variant text with budget }
      ⟨Scanner.ofText text, []⟩ ≠ .stalled := by
  refine sourceFile_answers ?_ ?_ (by simp [Context.ofText])
  · simp only [recursionBudget, loopBudget, topRank] at hfuel ⊢
    omega
  · simp only [loopBudget] at hbudget
    exact Nat.lt_of_lt_of_le (by omega) hbudget

end Grammar

namespace SyntaxTree

/-- Every text is read to a tree or to a failure of the grammar, whatever is left of fuel and
budget: each item that a loop repeats takes a token, and what looks ahead finds the same however far
it might go. -/
theorem parseAs_comes_to_an_end (variant : Variant) (file text : String) :
    (∀ fuel budget, recursionBudget text ≤ fuel → loopBudget text ≤ budget →
      sourceFile (rules fuel) { Context.ofText variant text with budget }
        ⟨Scanner.ofText text, []⟩ ≠ .stalled) ∧
    ((∃ tree, parseAs variant file text = .ok tree) ∨ ∃ failure : Failure,
      parseAs variant file text = .error (.ofText text failure.pos failure.cause.message)) ∧
    (∀ item fuel context state node state', state.scanner.Reached text →
      itemParser (rules fuel) item context state = .done node state' →
        node.TakesToken state.offset state'.offset) ∧
    ∀ (s : Scanner) fuel, s.tokensAhead ≤ fuel →
      Scanner.startsDeclarationFrom fuel s = s.startsDeclaration ∧
      Scanner.skipParameterModifiers fuel s = Scanner.skipParameterModifiers s.tokensAhead s ∧
      ∀ depth, Scanner.skipPattern fuel depth s = Scanner.skipPattern s.tokensAhead depth s := by
  have hends : ∀ fuel budget, recursionBudget text ≤ fuel → loopBudget text ≤ budget →
      sourceFile (rules fuel) { Context.ofText variant text with budget }
        ⟨Scanner.ofText text, []⟩ ≠ .stalled := by
    intro fuel budget hfuel hbudget
    exact sourceFile_answers_ofText variant text hfuel hbudget
  refine ⟨hends, ?_, ?_, ?_⟩
  · unfold parseAs parseFrom
    dsimp only
    split
    · exact .inl ⟨_, rfl⟩
    · rename_i failure stop hreply
      exact .inr ⟨failure, rfl⟩
    · rename_i hreply
      exact absurd hreply (hends _ _ (Nat.le_refl _) (Nat.le_refl _))
  · intro item fuel context state node state' hreached hdone
    exact takesToken_of_itemParser item fuel hreached hdone
  · intro s fuel hfuel
    exact ⟨s.startsDeclarationFrom_stable hfuel, s.skipParameterModifiers_stable hfuel,
      s.skipPattern_stable hfuel⟩

end SyntaxTree

end Untype
