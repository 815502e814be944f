-- The initializers that the text of an enum has. A constant is a number or a
-- quoted string, worked out from the earlier members; the others are moved as
-- they are, and name no member of their declaration.
import Untype.Proofs.Erasure.Declarations

namespace Untype

open Untype.Node Erasure

/-! ## Numbers -/

namespace Number

variable {c : Char}

/-- The characters of a number in decimal. -/
def IsNumeral (c : Char) : Prop := c.isDigit ∨ c = '.' ∨ c = '-'

theorem isNumeral_toString {n : Nat} (h : c ∈ (toString n).toList) : IsNumeral c := by
  simp only [Nat.toString_eq_repr, Nat.toList_repr] at h
  exact .inl (Nat.isDigit_of_mem_toDigits (by decide) (by decide) h)

theorem isNumeral_positional {digits : Nat} {place : Int}
    (h : c ∈ (positional digits place).toList) :
    IsNumeral c := by
  have hzero : ∀ {n : Nat}, c ∈ List.replicate n '0' → IsNumeral c := fun hmem =>
    .inl ((List.mem_replicate.1 hmem).2 ▸ rfl)
  unfold positional at h
  dsimp only at h
  split at h
  · rw [String.toList_ofList] at h
    exact (List.mem_append.1 h).elim isNumeral_toString hzero
  · have hpadded : ∀ {n : Nat}, c ∈ List.replicate n '0' ++ (toString digits).toList →
        IsNumeral c :=
      fun hmem => (List.mem_append.1 hmem).elim hzero isNumeral_toString
    rw [String.toList_ofList] at h
    rcases List.mem_append.1 h with h | h
    · exact hpadded (List.mem_of_mem_take h)
    · rcases List.mem_cons.1 h with rfl | h
      · exact .inr (.inl rfl)
      · exact hpadded (List.mem_of_mem_drop h)

/-- The text of a number is a numeral, unless it is a word for what no numeral stands for. -/
theorem isNumeral_text {number : Number} (hnan : ∀ negative, number ≠ nan negative)
    (hinfinity : ∀ negative, number ≠ infinity negative) (h : c ∈ number.text.toList) :
    IsNumeral c := by
  have hmagnitude : ∀ {value : Rat}, c ∈ (magnitudeText value).toList → IsNumeral c := by
    intro value hmem
    unfold magnitudeText at hmem
    split at hmem
    · exact isNumeral_toString hmem
    · exact isNumeral_positional hmem
  cases number with
  | nan negative => exact absurd rfl (hnan negative)
  | infinity negative => exact absurd rfl (hinfinity negative)
  | zero negative =>
    obtain rfl : c = '0' := by simpa [text] using h
    exact .inl rfl
  | finite value =>
    rw [text] at h
    split at h
    · rw [String.toList_append] at h
      rcases List.mem_append.1 h with h | h
      · obtain rfl : c = '-' := by simpa using h
        exact .inr (.inr rfl)
      · exact hmagnitude h
    · exact hmagnitude h

end Number

/-! ## Enums -/

/-- An enum in plainer words has the values that its members have by rule: 0 or one more than the
member before, a constant that is folded from the earlier members, or an initializer that is moved
as it is. A folded number is a numeral, or the word for a number that has none. An initializer that
is moved names no member of this declaration, and has no type syntax but `implements`. -/
theorem SyntaxTree.erase_resolves_members {variant : Variant} {file text : String}
    {tree : SyntaxTree} (hparse : SyntaxTree.parseAs variant file text = .ok tree)
    {options : Options} {task : Task} {list declaration : Node} {piece : Inserted}
    (hlist : Visits (.ofTree options text tree.root) .none tree.root task list)
    (hmeets : Meets (.ofTree options text tree.root) task list declaration (.replace piece))
    (hlowered : piece.lowered = true) :
    declaration.isKind .enumDeclaration = true ∧
    ∃ enum values baseIndent unit left,
      Valued text declaration enum values ∧
      inserted left ∈ (tree.erase options).tree.root.descendants ∧
      left.text = enumText enum (declaration.hasToken .exportKeyword) values baseIndent unit ∧
      (∀ key number, (key, .constant (.number number)) ∈ values →
        (∀ negative, number ≠ .nan negative) → (∀ negative, number ≠ .infinity negative) →
        ∀ c ∈ number.text.toList, Number.IsNumeral c) ∧
      ∀ key value, (key, .computed value) ∈ values → ∃ member ∈ declaration.children,
        ∃ initializer ∈ member.children, value = initializer.text text ∧
          ∀ part ∈ initializer.descendants,
            (∀ name, part.name? text = some name → name ∉ values.map Prod.fst) ∧
            part.label.satisfies NodeKind.isTypeOnly = false ∧
            (part.isTypeContext = true → part.isImplements = true) := by
  obtain ⟨rfl, -⟩ := SyntaxTree.parseAs_tiles hparse
  obtain ⟨hkind, indent, unit, htext⟩ := hmeets.enumText? hlowered
  obtain ⟨enum, values, hvalues, htext⟩ := enumText?_eq_some htext
  obtain ⟨w, hreaches⟩ := hlist.reaches {}
  obtain ⟨left, hleft, hsame⟩ := hmeets.exists_piece w
  refine ⟨hkind, enum, values, indent, unit, left, hvalues,
    mem_descendants_of_mem_children hleft hreaches.mem_descendants, hsame.trans htext,
    fun key number _ hnan hinfinity c hc => Number.isNumeral_text hnan hinfinity hc,
    fun key value hmem => ?_⟩
  obtain ⟨member, hmember, -, initializer, hinitializer, hvalue, hmovable⟩ := hvalues.computed hmem
  refine ⟨member, hmember, initializer, hinitializer, hvalue, fun part hpart => ?_⟩
  obtain ⟨hnames, htypes⟩ := Bool.and_eq_true_iff.1 (List.all_eq_true.1 hmovable part hpart)
  refine ⟨fun name hname => ?_, by simpa using htypes, isImplements_of_isMovable hmovable hpart⟩
  have hnames : (part.name? tree.source).any (values.map Prod.fst).contains = false :=
    (Bool.not_eq_true' _).mp hnames
  rw [hname] at hnames
  simpa using hnames

/-- An enum with members of all kinds. -/
def mixedMembers : String :=
  "enum E \x7b A, B = 5, C, D = A | E.B, F = E[\"C\"], G = f() \x7d"

theorem Erasure.exists_meets_enum (source text : String)
    (h : (SyntaxTree.parseAs .standard "a.ts" source).toOption.any fun tree =>
      tree.root.isKind .sourceFile ∧
        ∃ enum ∈ tree.root.children, enum.isKind .enumDeclaration ∧
          enum.hasToken .declareKeyword = false ∧
          enumText? source enum (Text.lineIndent source enum.span.start)
            (Setting.ofTree {} source tree.root).unit = some text) :
    ∃ tree declaration piece, SyntaxTree.parseAs .standard "a.ts" source = .ok tree ∧
      Meets (.ofTree {} source tree.root) .none tree.root declaration (.replace piece) ∧
      piece.lowered ∧ piece.text = text := by
  obtain ⟨tree, hparse, hroot, declaration, hmem, hkind, hdeclare, htext⟩ :=
    SyntaxTree.exists_checked h
  obtain ⟨span, marks, children, rfl⟩ := exists_of_isKind hkind
  obtain ⟨scope, -, hmeets⟩ :=
    exists_meets_statement (.ofTree {} source tree.root) hroot hmem rfl rfl
  have haction : ∃ piece : Inserted, (statementVerdict (.ofTree {} source tree.root) scope
      (branch .enumDeclaration span marks children)).action = .replace piece ∧
        piece.lowered ∧ piece.text = text := by
    simp only [Setting.ofTree] at htext
    simp only [statementVerdict, kind?, hdeclare, Bool.false_eq_true, ↓reduceIte, enumVerdict,
      Setting.ofTree, htext]
    exact ⟨_, rfl, rfl, rfl⟩
  obtain ⟨piece, haction, hlowered, hpiece⟩ := haction
  exact ⟨tree, _, piece, hparse, haction ▸ hmeets, hlowered, hpiece⟩

/-- The text of the enum with members of all kinds. -/
def mixedObject : String :=
  "var E;\n(function (E) \x7b\n" ++
    "    E[E[\"A\"] = 0] = \"A\";\n    E[E[\"B\"] = 5] = \"B\";\n    E[E[\"C\"] = 6] = \"C\";\n" ++
    "    E[E[\"D\"] = 5] = \"D\";\n    E[E[\"F\"] = 6] = \"F\";\n" ++
    "    E[E[\"G\"] = f()] = \"G\";\n\x7d)(E || (E = \x7b\x7d));"

/-- The members follow each other, name each other, and call a function. -/
theorem SyntaxTree.erase_resolves_members_mixed :
    ∃ tree declaration piece, SyntaxTree.parseAs .standard "a.ts" mixedMembers = .ok tree ∧
      Meets (.ofTree {} mixedMembers tree.root) .none tree.root declaration (.replace piece) ∧
      piece.lowered = true ∧ piece.text = mixedObject ∧
      ∃ enum values baseIndent unit left, Valued mixedMembers declaration enum values ∧
        inserted left ∈ (tree.erase {}).tree.root.descendants ∧
        left.text = enumText enum (declaration.hasToken .exportKeyword) values baseIndent unit := by
  obtain ⟨tree, declaration, piece, hparse, hmeets, hlowered, htext⟩ :=
    exists_meets_enum mixedMembers mixedObject (by decide +kernel)
  obtain ⟨-, enum, values, indent, unit, left, hvalued, hleft, hsame, -⟩ :=
    SyntaxTree.erase_resolves_members hparse .here hmeets hlowered
  exact ⟨tree, declaration, piece, hparse, hmeets, hlowered, htext, enum, values, indent,
    unit, left, hvalued, hleft, hsame⟩

/-- An initializer can name a member of another declaration of its enum. The name is moved as it
is, and there is no such variable. -/
theorem SyntaxTree.erase_moves_member_of_merged_enum :
    ∃ tree, SyntaxTree.parseAs .standard "a.ts" "enum E \x7b A = 1 \x7d\nenum E \x7b B = A \x7d" =
      .ok tree ∧ (tree.erase {}).tree.text =
        "var E;\n(function (E) \x7b\n    E[E[\"A\"] = 1] = \"A\";\n\x7d)(E || (E = \x7b\x7d));\n" ++
        "var E;\n(function (E) \x7b\n    E[E[\"B\"] = A] = \"B\";\n\x7d)(E || (E = \x7b\x7d));" :=
  SyntaxTree.exists_checked (by decide +kernel)

end Untype
