-- How operators group what stands between them: the stronger ones first, those
-- of one strength from the left, and `**` from the right.
import Untype.Proofs.Shapes.Nodes

namespace Untype.Grammar

open Untype.Node

variable {operator : TokenKind}

/-! ## Strengths -/

theorem bindingStrength_le (operator : TokenKind) :
    bindingStrength operator ≤ bindingStrength .asteriskAsterisk := by
  unfold bindingStrength
  split <;> decide

theorem eq_asteriskAsterisk_of_le
    (h : bindingStrength .asteriskAsterisk ≤ bindingStrength operator) :
    operator = .asteriskAsterisk := by
  change 12 ≤ bindingStrength operator at h
  unfold bindingStrength at h
  split at h <;> first | rfl | omega

theorem not_loose_of_binds (h : 0 < bindingStrength operator) :
    ¬(operator = .comma ∨ operator.isAssignmentOperator) := by
  unfold bindingStrength at h
  split at h <;> first | decide | omega

theorem continues_eq_true {strength : Nat} (h : continues strength operator) :
    strength < bindingStrength operator ∨
      strength = bindingStrength .asteriskAsterisk ∧ operator = .asteriskAsterisk := by
  unfold continues at h
  dsimp only at h
  split at h
  · rename_i hpower
    obtain rfl : operator = .asteriskAsterisk := by simpa using hpower
    have hle : strength ≤ bindingStrength .asteriskAsterisk := by simpa using h
    exact (Nat.lt_or_eq_of_le hle).imp_right fun heq => ⟨heq, rfl⟩
  · exact .inl (by simpa using h)

theorem of_not_continues {inner : TokenKind}
    (h : continues (bindingStrength inner) operator = false) :
    bindingStrength operator ≤ bindingStrength inner ∧ operator ≠ .asteriskAsterisk := by
  unfold continues at h
  dsimp only at h
  split at h
  · rename_i hpower
    obtain rfl : operator = .asteriskAsterisk := by simpa using hpower
    exact absurd (bindingStrength_le inner) (by simpa using h)
  · rename_i hpower
    exact ⟨by simpa using h, by simpa using hpower⟩

theorem rescanGreater_rescanGreater (s : Scanner) :
    s.rescanGreater.rescanGreater = s.rescanGreater := by
  have hjoined : s.rescanGreater = s ∨ s.rescanGreater.kind ≠ .greaterThan := by
    unfold Scanner.rescanGreater
    dsimp only
    split
    · split <;> first | exact .inl rfl | exact .inr (by simp [Scanner.reread])
    · exact .inl rfl
  rcases hjoined with heq | hkind
  · rw [heq, heq]
  · exact if_neg (by simpa using hkind)

/-! ## Operands -/

/-- The operator here goes on with an expression of this strength. If `noIn`, then `in` is none. -/
structure GoesOn (strength : Nat) (noIn : Bool) (s : Scanner) : Prop where
  binds : 0 < bindingStrength s.kind
  strong : continues strength s.kind
  allowed : ¬(s.kind = .inKeyword ∧ noIn)
  onLine : s.kind = .asKeyword ∨ s.kind = .satisfiesKeyword → s.afterLineBreak = false

/-- What holds the node together binds tighter than the strength. -/
structure Tight (strength : Nat) (node : Node) : Prop where
  operator : ∀ inner, node.operator? = some inner → continues strength inner
  assertion : node.isAssertion → strength < bindingStrength .asKeyword
  notLoose : node.isLoose = false

/-- What the loop over operators knows of the expression so far and of the token it has come to:
what the last operator left behind is not for it. -/
structure Climbs (strength : Nat) (noIn : Bool) (node : Node) (s : Scanner) : Prop where
  operand : node.isOperand
  tight : Tight strength node
  settled : ∀ inner, node.operator? = some inner → ¬GoesOn (bindingStrength inner) noIn s

theorem Climbs.of_isUnary {node : Node} (h : node.isUnary) (strength : Nat) (noIn : Bool)
    (s : Scanner) : Climbs strength noIn node s := by
  have hnone : node.operator? = none := by
    unfold operator?
    split
    · cases h
    · rfl
  have hplain : node.isAssertion = false ∧ node.isLoose = false := by
    cases node with
    | branch kind span marks children => cases kind <;> first | exact ⟨rfl, rfl⟩ | cases h
    | _ => exact ⟨rfl, rfl⟩
  exact ⟨isOperand_of_isUnary h, ⟨by simp [hnone], by simp [hplain.1], hplain.2⟩, by simp [hnone]⟩

section Steps

variable {text : String} {strength : Nat} {noIn : Bool} {s : Scanner} {left sign right : Node}
variable {s' : Scanner}

variable (h : GoesOn strength noIn s) (hleft : Climbs strength noIn left s)

include h hleft

theorem GoesOn.of_settled {inner : TokenKind} (hinner : left.operator? = some inner) :
    bindingStrength s.kind ≤ bindingStrength inner ∧ s.kind ≠ .asteriskAsterisk := by
  refine of_not_continues (Bool.eq_false_iff.2 fun hcontinues => ?_)
  exact hleft.settled inner hinner ⟨h.binds, hcontinues, h.allowed, h.onLine⟩

theorem GoesOn.grouped
    (hright : Tight (bindingStrength s.kind) right) : Grouped s.kind left right := by
  refine ⟨fun inner hinner => ?_, fun inner hinner => ?_, hright.assertion, hleft.tight.notLoose,
    hright.notLoose⟩
  · obtain ⟨hle, hpower⟩ := h.of_settled hleft hinner
    exact ⟨hle, fun hboth => hpower hboth.1⟩
  · refine (continues_eq_true (hright.operator inner hinner)).imp_right fun hpower => ⟨?_, hpower.2⟩
    exact eq_asteriskAsterisk_of_le (Nat.le_of_eq hpower.1.symm)

/-- What an operator makes of its operands. -/
theorem GoesOn.binary
    (hsign : sign.token? = some s.kind) (hright : Tight (bindingStrength s.kind) right)
    (hstops : ¬GoesOn (bindingStrength s.kind) noIn s') :
    NodeKind.HasShape text .binaryExpression [left, sign, right] ∧
      Climbs strength noIn (group .binaryExpression [left, sign, right]) s' := by
  have hoperator : (group .binaryExpression [left, sign, right]).operator? = some s.kind := hsign
  refine ⟨⟨left, sign, right, s.kind, rfl, hleft.operand, hsign,
    .inl ⟨h.binds, h.grouped hleft hright⟩⟩, rfl, ⟨?_, by simp [isAssertion], ?_⟩, ?_⟩
  · rw [hoperator]
    rintro _ ⟨⟩
    exact h.strong
  · simpa [group, isLoose, kind?, operator?, hsign] using not_loose_of_binds h.binds
  · rw [hoperator]
    rintro _ ⟨⟩
    exact hstops

/-- What `as` and `satisfies` make of an operand. -/
theorem GoesOn.assertion {type : Node} {kind : NodeKind}
    (hword : s.kind = .asKeyword ∨ s.kind = .satisfiesKeyword)
    (hkind : kind = .asExpression ∨ kind = .satisfiesExpression) :
    kind.HasShape text [left, sign, type] ∧
      Climbs strength noIn (group kind [left, sign, type]) s' := by
  have hasserted : left.Asserted := by
    refine ⟨fun inner hinner => ?_, hleft.tight.notLoose⟩
    have hle := (h.of_settled hleft hinner).1
    rcases hword with hword | hword <;> rwa [hword] at hle
  have hstrength : strength < bindingStrength .asKeyword := by
    rcases continues_eq_true h.strong with hlt | ⟨-, hpower⟩
    · rcases hword with hword | hword <;> rwa [hword] at hlt
    · rcases hword with hword | hword <;> rw [hword] at hpower <;> cases hpower
  rcases hkind with rfl | rfl
  all_goals
    refine ⟨⟨left, _, rfl, hleft.operand, hasserted⟩, rfl, ⟨?_, fun _ => hstrength, rfl⟩, ?_⟩
    all_goals rintro inner ⟨⟩

end Steps

/-! ## Casts -/

section Casts

variable {text : String} {node left right : Node}

end Casts

end Untype.Grammar
