-- The entries of an enum in plainer words. Members with numbers can be looked
-- up by their values, members with strings cannot, as long as the strings can
-- be worked out.
import Untype.Proofs.Erasure.Initializers

namespace Untype

open Untype.Node Untype.Text Erasure

/-! ## The text of an enum -/

namespace Erasure

/-- A member that can be looked up by its key. -/
def entryOneWay (enum key value : String) : String :=
  enum ++ "[" ++ quote key ++ "] = " ++ value ++ ";"

/-- A member that can be looked up by its key, and its key by its value. -/
def entryBothWays (enum key value : String) : String :=
  enum ++ "[" ++ enum ++ "[" ++ quote key ++ "] = " ++ value ++ "] = " ++ quote key ++ ";"

/-- A variable, and a function that fills it with entries, each on a line of its own. -/
def objectText (enum : String) (exported : Bool) (entries : List String)
    (baseIndent unit : String) :
    String :=
  (if exported then "export " else "") ++ "var " ++ enum ++ ";" ++
    "\n" ++ baseIndent ++ "(function (" ++ enum ++ ") \x7b" ++
    String.join (entries.map fun entry => "\n" ++ baseIndent ++ unit ++ entry) ++
    "\n" ++ baseIndent ++ "\x7d)(" ++ enum ++ " || (" ++ enum ++ " = \x7b\x7d));"

theorem write_line (w : Writer) {text : String} (h : text ≠ "") : w.line.write text =
    { w with
      output := w.output ++ ("\n" ++ (w.baseIndent ++ Writer.repeated w.unit w.level) ++ text)
      pending := false } := by
  simp [Writer.line, Writer.write, h, String.append_assoc]

theorem memberLine_ne_empty (enum key : String) (value : MemberValue) :
    memberLine enum key value ≠ "" := by
  cases value with
  | constant value => cases value <;> simp [memberLine, memberLine.bothWays]
  | computed text => simp [memberLine, memberLine.bothWays]

theorem write_members (enum : String) (values : List (String × MemberValue)) {w : Writer}
    (h : w.pending = false) :
    values.foldl (fun w entry => w.line.write (memberLine enum entry.1 entry.2)) w =
      { w with
        output := w.output ++ String.join (values.map fun entry =>
          "\n" ++ (w.baseIndent ++ Writer.repeated w.unit w.level) ++
            memberLine enum entry.1 entry.2) } := by
  induction values generalizing w with
  | nil =>
    cases w
    simp
  | cons entry values ih =>
    rw [List.foldl_cons, write_line w (memberLine_ne_empty enum entry.1 entry.2), ih rfl]
    simp [h, String.append_assoc]

/-- The text of an enum has one entry for each member, in order. -/
theorem enumText_eq (enum : String) (exported : Bool) (values : List (String × MemberValue))
    (baseIndent unit : String) : enumText enum exported values baseIndent unit =
      objectText enum exported (values.map fun entry => memberLine enum entry.1 entry.2)
        baseIndent unit := by
  have hfirst : (if exported then ({ baseIndent, unit } : Writer).write "export " else
      { baseIndent, unit }) =
      { output := if exported then "export " else "", baseIndent, unit } := by
    cases exported <;> simp [Writer.write]
  have hvar : ∀ w : Writer, w.pending = false → w.write ("var " ++ enum ++ ";") =
      { w with output := w.output ++ ("var " ++ enum ++ ";") } := by
    rintro ⟨output, indent, unit, level, pending⟩ rfl
    simp [Writer.write, String.append_assoc]
  unfold enumText objectText
  simp only [hfirst]
  rw [hvar _ rfl, write_line _ (by simp), write_line _ (by simp), Writer.indent,
    write_members _ _ rfl]
  simp [-String.reduceAppend, Writer.dedent, Writer.repeated, String.append_assoc, List.map_map,
    Function.comp_def]

/-! ## Strings -/

/-- The literals of an expression that puts string literals together. -/
def stringLiterals? (source : String) : Node → Option (List String)
  | .leaf token =>
    if token.kind == .stringLiteral || token.kind == .noSubstitutionTemplateLiteral then
      some [slice source token.span.start token.span.stop]
    else
      none
  | .branch .parenthesizedExpression _ _ (_ :: inner :: _) => stringLiterals? source inner
  | .branch .binaryExpression _ _ (left :: sign :: right :: _) =>
    if sign.isToken .plus then
      match stringLiterals? source left, stringLiterals? source right with
      | some left, some right => some (left ++ right)
      | _, _ => none
    else
      none
  | _ => none

/-- Such an expression has a value just when all its literals have one. -/
theorem constant?_of_stringLiterals? {source : String} (known : KnownMembers) {node : Node}
    {literals : List String} (h : stringLiterals? source node = some literals) :
    constant? source known node =
      (literals.mapM stringValue?).map fun parts => .string (String.join parts) := by
  fun_induction stringLiterals? source node generalizing literals with
  | case1 token hkind =>
    obtain rfl := Option.some.inj h
    rcases (Bool.or_eq_true _ _).mp hkind with hkind | hkind <;>
      cases hvalue : stringValue? (slice source token.span.start token.span.stop) <;>
        simp [constant?, beq_iff_eq.1 hkind, hvalue]
  | case3 span marks opening inner rest ih => simpa [constant?] using ih h
  | case4 span marks left sign right rest hsign leftOnes rightOnes hright hleft ihleft ihright =>
    obtain rfl := Option.some.inj h
    have hplus : sign.token? = some .plus := by simpa [isToken] using hsign
    rw [constant?, ihleft hleft, ihright hright, List.mapM_append, hplus]
    cases leftOnes.mapM stringValue? <;> cases rightOnes.mapM stringValue? <;>
      simp [Constant.binary?, Constant.text]
  | case2 | case5 | case6 | case7 => cases h

theorem exists_knows (enum : String) (earlier : List (String × MemberValue)) :
    ∃ known, Knows known enum earlier := by
  induction earlier using List.reverseRecOn with
  | nil => exact ⟨{ enum }, rfl, fun _ => rfl⟩
  | append_singleton earlier entry ih =>
    obtain ⟨known, hknown⟩ := ih
    exact ⟨_, hknown.learn entry.1 entry.2⟩

/-- How the entry of a member looks. -/
structure IsEntry (source enum : String) (member : Node) (key : String) (value : MemberValue)
    (entry : String) : Prop where
  /-- Strings that can be worked out cannot be looked up by their values. -/
  string : ∀ {initializer : Node} {literals parts : List String},
    member.children[2]? = some initializer →
    stringLiterals? source initializer = some literals → literals.mapM stringValue? = some parts →
    entry = entryOneWay enum key (quote (String.join parts))
  /-- An initializer with a string that cannot be worked out is moved, and what it comes to can be
  looked up both ways. -/
  moved : ∀ {initializer : Node} {literals : List String}, member.children[2]? = some initializer →
    stringLiterals? source initializer = some literals → literals.mapM stringValue? = none →
    entry = entryBothWays enum key (initializer.text source)
  number : ∀ {number : Number}, value = .constant (.number number) →
    entry = entryBothWays enum key number.text

section Resolves

variable {source enum : String} {keys : List String} {earlier : List (String × MemberValue)}
  {member : Node} {value : MemberValue}

/-- The value of a member with an initializer is its constant, or else its text. -/
theorem Resolves.eq_of_initializer {known : KnownMembers} {initializer : Node}
    (h : Resolves source enum keys earlier member value) (hknown : Knows known enum earlier)
    (hget : member.children[2]? = some initializer) :
    value = ((constant? source known initializer).map .constant).getD
      (.computed (initializer.text source)) := by
  obtain ⟨hlt, rfl⟩ := List.getElem?_eq_some_iff.1 hget
  have hdrop := List.drop_eq_getElem_cons hlt
  cases h with
  | zero hbare | successor hbare =>
    exact absurd (hbare.symm.trans hdrop) (List.cons_ne_nil _ _).symm
  | folded hinitializer hvalue =>
    obtain ⟨rfl, -⟩ := List.cons.inj (hinitializer.symm.trans hdrop)
    rw [hvalue.constant? hknown]
    rfl
  | computed hinitializer hunknown =>
    obtain ⟨rfl, -⟩ := List.cons.inj (hinitializer.symm.trans hdrop)
    have hnone : constant? source known member.children[2] = none :=
      Option.eq_none_iff_forall_ne_some.2 fun value hvalue =>
        hunknown value ((constant?_eq_some_iff hknown).1 hvalue)
    rw [hnone]
    rfl

theorem Resolves.isEntry (key : String) (h : Resolves source enum keys earlier member value) :
    IsEntry source enum member key value (memberLine enum key value) := by
  obtain ⟨known, hknown⟩ := exists_knows enum earlier
  constructor
  · intro initializer literals parts hget hliterals hparts
    rw [h.eq_of_initializer hknown hget, constant?_of_stringLiterals? known hliterals, hparts]
    rfl
  · intro initializer literals hget hliterals hbroken
    rw [h.eq_of_initializer hknown hget, constant?_of_stringLiterals? known hliterals, hbroken]
    rfl
  · rintro number rfl
    rfl

end Resolves

end Erasure

/-! ## Enums -/

/-- An enum in plainer words has one entry for each of its members, in order. A member with a
string, written as literals that are put together, cannot be looked up by its value if the literals
can all be worked out, and can be if they cannot. A member with a number can be looked up both
ways. -/
theorem SyntaxTree.erase_writes_entries {variant : Variant} {file text : String}
    {tree : SyntaxTree} (hparse : SyntaxTree.parseAs variant file text = .ok tree)
    {options : Options} {task : Task} {list declaration : Node} {piece : Inserted}
    (hlist : Visits (.ofTree options text tree.root) .none tree.root task list)
    (hmeets : Meets (.ofTree options text tree.root) task list declaration (.replace piece))
    (hlowered : piece.lowered = true) :
    declaration.isKind .enumDeclaration = true ∧
    ∃ enum values entries baseIndent unit left,
      Valued text declaration enum values ∧
      inserted left ∈ (tree.erase options).tree.root.descendants ∧
      left.text = objectText enum (declaration.hasToken .exportKeyword) entries baseIndent unit ∧
      entries.length = values.length ∧
      ∀ front key value back, values = front ++ (key, value) :: back → ∃ member entry,
        (declaration.children.filter (isKind .enumMember))[front.length]? = some member ∧
        entries[front.length]? = some entry ∧ IsEntry text enum member key value entry := by
  obtain ⟨rfl, -⟩ := SyntaxTree.parseAs_tiles hparse
  obtain ⟨hkind, indent, unit, htext⟩ := hmeets.enumText? hlowered
  obtain ⟨enum, values, hvalues, htext⟩ := enumText?_eq_some htext
  rw [enumText_eq] at htext
  obtain ⟨w, hreaches⟩ := hlist.reaches {}
  obtain ⟨left, hleft, hsame⟩ := hmeets.exists_piece w
  have hmem : inserted left ∈ (tree.erase options).tree.root.descendants :=
    mem_descendants_of_mem_children hleft hreaches.mem_descendants
  refine ⟨hkind, enum, values, _, indent, unit, left, hvalues, hmem, hsame.trans htext,
    List.length_map _, fun front key value back hsplit => ?_⟩
  obtain ⟨member, hmember, hresolves⟩ := hvalues.resolves hsplit
  exact ⟨member, memberLine enum key value, hmember, by simp [hsplit], hresolves.isEntry key⟩

/-- An enum with strings and numbers. -/
def stringMembers : String := "enum E \x7b A = \"x\", B = ('y' + (\x60\\x7a\x60)), C = 5, D \x7d"

/-- Its text. -/
def stringObject : String :=
  "var E;\n(function (E) \x7b\n    E[\"A\"] = \"x\";\n    E[\"B\"] = \"yz\";\n" ++
    "    E[E[\"C\"] = 5] = \"C\";\n    E[E[\"D\"] = 6] = \"D\";\n\x7d)(E || (E = \x7b\x7d));"

theorem SyntaxTree.erase_writes_entries_strings :
    ∃ tree declaration piece, SyntaxTree.parseAs .standard "a.ts" stringMembers = .ok tree ∧
      Meets (.ofTree {} stringMembers tree.root) .none tree.root declaration (.replace piece) ∧
      piece.lowered = true ∧ piece.text = stringObject ∧
      ∃ enum values entries baseIndent unit left, Valued stringMembers declaration enum values ∧
        inserted left ∈ (tree.erase {}).tree.root.descendants ∧
        left.text =
          objectText enum (declaration.hasToken .exportKeyword) entries baseIndent unit := by
  obtain ⟨tree, declaration, piece, hparse, hmeets, hlowered, htext⟩ :=
    exists_meets_enum stringMembers stringObject (by decide +kernel)
  obtain ⟨-, enum, values, entries, indent, unit, left, hvalued, hleft, hsame, -⟩ :=
    SyntaxTree.erase_writes_entries hparse .here hmeets hlowered
  exact ⟨tree, declaration, piece, hparse, hmeets, hlowered, htext, enum, values, entries,
    indent, unit, left, hvalued, hleft, hsame⟩

/-- A string with a character in two halves cannot be worked out, and can be looked up both ways. -/
theorem SyntaxTree.erase_maps_string_back :
    ∃ tree, SyntaxTree.parseAs .standard "a.ts" "enum E \x7b A = \"\\uD83D\\uDE00\" \x7d" =
      .ok tree ∧ (tree.erase {}).tree.text = "var E;\n(function (E) \x7b\n" ++
        "    E[E[\"A\"] = \"\\uD83D\\uDE00\"] = \"A\";\n\x7d)(E || (E = \x7b\x7d));" :=
  SyntaxTree.exists_checked (by decide +kernel)

end Untype
