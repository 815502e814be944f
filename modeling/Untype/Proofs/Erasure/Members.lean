-- The values of the members of an enum. An initializer is folded by rules of
-- its own: literals, operators, and names of members that stand in front. The
-- walk over the members knows the constants of those it has passed, so each
-- member is worked out from the earlier ones alone.
import Untype.Erasure.Enums

namespace Untype.Erasure

open Untype.Node Text

variable {source enum : String} {earlier : List (String × MemberValue)} {known : KnownMembers}
variable {node declaration : Node} {value : Constant} {keys : List String}

/-! ## Folded expressions -/

/-- The constant that a name stands for: that of the last of these members with this key. -/
def memberConstant? (members : List (String × MemberValue)) (name : String) : Option Constant :=
  members.reverse.findSome? fun
    | (key, .constant value) => if name == key then some value else none
    | (_, .computed _) => none

@[simp]
theorem memberConstant?_concat_constant (members : List (String × MemberValue)) (key name : String)
    (value : Constant) : memberConstant? (members ++ [(key, .constant value)]) name =
      if name == key then some value else memberConstant? members name := by
  rw [memberConstant?, List.reverse_concat, List.findSome?_cons]
  split <;> simp_all [memberConstant?]

@[simp]
theorem memberConstant?_concat_computed (members : List (String × MemberValue))
    (key name text : String) : memberConstant? (members ++ [(key, .computed text)]) name =
      memberConstant? members name := by
  rw [memberConstant?, List.reverse_concat, List.findSome?_cons, memberConstant?]

/-- The expression has this constant value, worked out from literals and from the members that
stand `earlier` in the enum. -/
inductive Folds (source enum : String) (earlier : List (String × MemberValue)) :
    Node → Constant → Prop where
  | number {token : Token} {value : Number} (hkind : token.kind = .numericLiteral)
      (hvalue : Number.ofLiteral? (slice source token.span.start token.span.stop) = some value) :
      Folds source enum earlier (leaf token) (.number value)
  | string {token : Token} {value : String}
      (hkind : token.kind = .stringLiteral ∨ token.kind = .noSubstitutionTemplateLiteral)
      (hvalue : stringValue? (slice source token.span.start token.span.stop) = some value) :
      Folds source enum earlier (leaf token) (.string value)
  | infinity {token : Token} (hkind : token.kind = .identifier)
      (htext : slice source token.span.start token.span.stop = "Infinity") :
      Folds source enum earlier (leaf token) (.number (.infinity false))
  | nan {token : Token} (hkind : token.kind = .identifier)
      (htext : slice source token.span.start token.span.stop = "NaN") :
      Folds source enum earlier (leaf token) (.number (.nan false))
  | name {token : Token} {value : Constant} (hkind : token.kind = .identifier)
      (hinfinity : slice source token.span.start token.span.stop ≠ "Infinity")
      (hnan : slice source token.span.start token.span.stop ≠ "NaN")
      (hmember : memberConstant? earlier (slice source token.span.start token.span.stop) =
        some value) :
      Folds source enum earlier (leaf token) value
  | parenthesized {span : Span} {marks : Marks} {left inner : Node} {rest : List Node}
      {value : Constant} (hinner : Folds source enum earlier inner value) :
      Folds source enum earlier (branch .parenthesizedExpression span marks (left :: inner :: rest))
        value
  | unary {span : Span} {marks : Marks} {sign operand : Node} {rest : List Node}
      {operator : TokenKind} {value result : Number} (hsign : sign.token? = some operator)
      (hoperand : Folds source enum earlier operand (.number value))
      (hresult : Constant.unary? operator value = some result) :
      Folds source enum earlier (branch .prefixUnaryExpression span marks (sign :: operand :: rest))
        (.number result)
  | binary {span : Span} {marks : Marks} {left sign right : Node} {rest : List Node}
      {operator : TokenKind} {a b result : Constant} (hsign : sign.token? = some operator)
      (hleft : Folds source enum earlier left a) (hright : Folds source enum earlier right b)
      (hresult : Constant.binary? operator a b = some result) :
      Folds source enum earlier (branch .binaryExpression span marks
        (left :: sign :: right :: rest)) result
  | property {span : Span} {marks : Marks} {object property : Node} {rest : List Node}
      {value : Constant} (hobject : object.text source = enum)
      (hlast : rest.getLast? = some property)
      (hmember : memberConstant? earlier (property.text source) = some value) :
      Folds source enum earlier (branch .propertyAccessExpression span marks (object :: rest)) value
  | element {span : Span} {marks : Marks} {object bracket index : Node} {rest : List Node}
      {key : String} {value : Constant} (hobject : object.text source = enum)
      (hindex : Folds source enum earlier index (.string key))
      (hmember : memberConstant? earlier key = some value) :
      Folds source enum earlier
        (branch .elementAccessExpression span marks (object :: bracket :: index :: rest)) value

/-- What is known is what the earlier members say. -/
structure Knows (known : KnownMembers) (enum : String) (earlier : List (String × MemberValue)) :
    Prop where
  enum_eq : known.enum = enum
  lookup_eq : ∀ name, known.values.lookup name = memberConstant? earlier name

theorem Folds.constant? (hknown : Knows known enum earlier)
    (h : Folds source enum earlier node value) :
    Erasure.constant? source known node = some value := by
  obtain ⟨rfl, hlookup⟩ := hknown
  induction h with
  | number hkind hvalue => simp [Erasure.constant?, hkind, hvalue]
  | string hkind hvalue =>
    rcases hkind with hkind | hkind <;> simp [Erasure.constant?, hkind, hvalue]
  | infinity hkind htext | nan hkind htext => simp [Erasure.constant?, hkind, htext]
  | name hkind hinfinity hnan hmember =>
    simp [Erasure.constant?, hkind, hinfinity, hnan, hlookup, hmember]
  | parenthesized _ ih => simpa [Erasure.constant?] using ih
  | unary hsign _ hresult ih => simp [Erasure.constant?, hsign, ih, hresult]
  | binary hsign _ _ hresult ihleft ihright =>
    simp [Erasure.constant?, hsign, ihleft, ihright, hresult]
  | property hobject hlast hmember => simp [Erasure.constant?, hobject, hlast, hlookup, hmember]
  | element hobject _ hmember ih => simp [Erasure.constant?, hobject, ih, hlookup, hmember]

/-- An expression is given a value just when the rules give it this value. -/
theorem constant?_eq_some_iff (hknown : Knows known enum earlier) :
    constant? source known node = some value ↔ Folds source enum earlier node value := by
  refine ⟨fun h => ?_, fun h => h.constant? hknown⟩
  obtain ⟨rfl, hlookup⟩ := hknown
  fun_induction constant? source known node generalizing value with
  | case1 token text =>
    obtain ⟨number, hnumber, rfl⟩ := Option.map_eq_some_iff.1 h
    exact .number ‹_› hnumber
  | case2 token text =>
    obtain ⟨string, hstring, rfl⟩ := Option.map_eq_some_iff.1 h
    exact .string (.inl ‹_›) hstring
  | case3 token text =>
    obtain ⟨string, hstring, rfl⟩ := Option.map_eq_some_iff.1 h
    exact .string (.inr ‹_›) hstring
  | case4 token text hkind =>
    obtain rfl := Option.some.inj h
    exact .infinity hkind (beq_iff_eq.1 ‹_›)
  | case5 token text hkind hinfinity =>
    obtain rfl := Option.some.inj h
    exact .nan hkind (beq_iff_eq.1 ‹_›)
  | case6 token text hkind hinfinity =>
    rename_i hnan
    exact .name hkind (by simpa using hinfinity) (by simpa using hnan) (hlookup _ ▸ h)
  | case8 span marks left inner rest ih => exact .parenthesized (ih h)
  | case9 span marks sign operand rest operator number hoperand hsign ih =>
    obtain ⟨result, hresult, rfl⟩ := Option.map_eq_some_iff.1 h
    exact .unary hsign (ih hoperand) hresult
  | case11 span marks left sign right rest operator a b hright hleft hsign ihleft ihright =>
    exact .binary hsign (ihleft hleft) (ihright hright) h
  | case13 span marks object rest hobject =>
    obtain ⟨property, hlast, hmember⟩ := Option.bind_eq_some_iff.1 h
    exact .property (beq_iff_eq.1 hobject) hlast (hlookup _ ▸ hmember)
  | case15 span marks object bracket index rest hobject key hindex ih =>
    exact .element (beq_iff_eq.1 hobject) (ih hindex) (hlookup key ▸ h)
  -- The other expressions have no value.
  | case7 | case10 | case12 | case14 | case16 | case17 | case18 => cases h

/-! ## One member -/

/-- The value of one member, `next` being that of a member without initializer. -/
def memberValue? (source : String) (keys : List String) (known : KnownMembers)
    (next : Option Number) (member : Node) : Option MemberValue :=
  match member.children.drop 2 with
  | [] => next.map fun value => .constant (.number value)
  | initializer :: _ =>
    match constant? source known initializer with
    | some value => some (.constant value)
    | none =>
      if isMovable source keys initializer then some (.computed (initializer.text source)) else none

/-- A constant is known from the next member on. -/
def KnownMembers.learn (known : KnownMembers) (key : String) : MemberValue → KnownMembers
  | .constant value => { known with values := (key, value) :: known.values }
  | .computed _ => known

theorem memberValues?_cons (keys : List String) (known : KnownMembers) (next : Option Number)
    (member : Node) (key : String) (rest : List (Node × String)) :
    memberValues? source keys known next ((member, key) :: rest) =
      (memberValue? source keys known next member).bind fun value =>
        (memberValues? source keys (known.learn key value) value.successor? rest).map
          ((key, value) :: ·) := by
  rw [memberValues?]
  -- What is done with a value is the same on both sides.
  have hlater : ∀ value : MemberValue,
      ((memberValues? source keys (match value with
          | .constant constant => { known with values := (key, constant) :: known.values }
          | .computed _ => known) value.successor? rest).bind fun others =>
            some ((key, value) :: others)) =
        (memberValues? source keys (known.learn key value) value.successor? rest).map
          ((key, value) :: ·) := by
    intro value
    cases value <;> rw [Option.map_eq_bind] <;> rfl
  simp only [Option.bind_eq_bind, Option.pure_def, memberValue?]
  cases member.children.drop 2 with
  | nil =>
    cases next with
    | none => rfl
    | some value => exact hlater (.constant (.number value))
  | cons initializer others =>
    dsimp only
    cases constant? source known initializer with
    | some value => exact hlater (.constant value)
    | none =>
      dsimp only
      split
      · exact hlater (.computed (initializer.text source))
      · rfl

theorem Knows.learn (h : Knows known enum earlier) (key : String) (value : MemberValue) :
    Knows (known.learn key value) enum (earlier ++ [(key, value)]) := by
  obtain ⟨henum, hlookup⟩ := h
  cases value with
  | constant value =>
    refine ⟨henum, fun name => ?_⟩
    rw [memberConstant?_concat_constant, ← hlookup name, KnownMembers.learn, List.lookup_cons]
    split <;> simp_all
  | computed text =>
    refine ⟨henum, fun name => ?_⟩
    rw [memberConstant?_concat_computed, KnownMembers.learn, hlookup]

/-- The value of a member as the members in front of it give it. `keys` are those of all members
of the enum. -/
inductive Resolves (source enum : String) (keys : List String)
    (earlier : List (String × MemberValue)) (member : Node) : MemberValue → Prop where
  | zero (hbare : member.children.drop 2 = []) (hfirst : earlier = []) :
      Resolves source enum keys earlier member (.constant (.number (.zero false)))
  | successor {key : String} {value : Number} (hbare : member.children.drop 2 = [])
      (hlast : earlier.getLast? = some (key, .constant (.number value))) :
      Resolves source enum keys earlier member (.constant (.number (value.add (Number.ofInt 1))))
  | folded {initializer : Node} {rest : List Node} {value : Constant}
      (hinitializer : member.children.drop 2 = initializer :: rest)
      (hvalue : Folds source enum earlier initializer value) :
      Resolves source enum keys earlier member (.constant value)
  | computed {initializer : Node} {rest : List Node}
      (hinitializer : member.children.drop 2 = initializer :: rest)
      (hunknown : ∀ value, ¬Folds source enum earlier initializer value)
      (hmovable : isMovable source keys initializer) :
      Resolves source enum keys earlier member (.computed (initializer.text source))

/-- The value of a member without initializer that follows these. -/
def next? (earlier : List (String × MemberValue)) : Option Number :=
  match earlier.getLast? with
  | none => some (.zero false)
  | some (_, value) => value.successor?

/-- One member is worked out from the earlier ones. -/
theorem resolves_of_memberValue? {member : Node} {value : MemberValue}
    (hknown : Knows known enum earlier)
    (h : memberValue? source keys known (next? earlier) member = some value) :
    Resolves source enum keys earlier member value := by
  unfold memberValue? at h
  split at h
  · rename_i hbare
    obtain ⟨number, hnumber, rfl⟩ := Option.map_eq_some_iff.1 h
    unfold next? at hnumber
    split at hnumber
    · rename_i hfirst
      obtain rfl := Option.some.inj hnumber
      exact .zero hbare (List.getLast?_eq_none_iff.1 hfirst)
    · rename_i key last hlast
      unfold MemberValue.successor? at hnumber
      split at hnumber
      · obtain rfl := Option.some.inj hnumber
        exact .successor hbare hlast
      · cases hnumber
  · rename_i initializer rest hinitializer
    split at h
    · rename_i constant hconstant
      obtain rfl := Option.some.inj h
      exact .folded hinitializer ((constant?_eq_some_iff hknown).1 hconstant)
    · rename_i hnone
      split at h
      · rename_i hmovable
        obtain rfl := Option.some.inj h
        refine .computed hinitializer (fun value hvalue => ?_) hmovable
        rw [hvalue.constant? hknown] at hnone
        cases hnone
      · cases h

/-! ## All members -/

/-- Each member after the earlier ones is worked out from those in front of it. -/
theorem resolves_of_memberValues? :
    ∀ {members : List (Node × String)} {known : KnownMembers}
      {earlier values : List (String × MemberValue)},
    Knows known enum earlier → memberValues? source keys known (next? earlier) members =
      some values →
    values.map Prod.fst = members.map Prod.snd ∧
      ∀ {front back : List (String × MemberValue)} {key : String} {value : MemberValue},
        values = front ++ (key, value) :: back → ∃ member,
          members[front.length]? = some (member, key) ∧
          Resolves source enum keys (earlier ++ front) member value
  | [], known, earlier, values, hknown, h => by
    obtain rfl : values = [] := by simpa [memberValues?] using h.symm
    simp
  | (member, key) :: rest, known, earlier, values, hknown, h => by
    rw [memberValues?_cons] at h
    obtain ⟨value, hvalue, h⟩ := Option.bind_eq_some_iff.1 h
    obtain ⟨others, hothers, rfl⟩ := Option.map_eq_some_iff.1 h
    have hnext : value.successor? = next? (earlier ++ [(key, value)]) := by simp [next?]
    rw [hnext] at hothers
    obtain ⟨hkeys, hothers⟩ := resolves_of_memberValues? (hknown.learn key value) hothers
    refine ⟨by simp [hkeys], fun {front back key' value'} hsplit => ?_⟩
    cases front with
    | nil =>
      obtain ⟨⟨rfl, rfl⟩, -⟩ :
          (key = key' ∧ value = value') ∧ others = back := by simpa using hsplit
      rw [List.append_nil]
      exact ⟨member, rfl, resolves_of_memberValue? hknown hvalue⟩
    | cons first front =>
      obtain ⟨rfl, hothers'⟩ : (key, value) = first ∧ others = front ++ (key', value') :: back := by
        simpa using hsplit
      obtain ⟨member', hmember, hresolves⟩ := hothers hothers'
      rw [List.append_assoc, List.singleton_append] at hresolves
      exact ⟨member', hmember, hresolves⟩

/-- The members of an enum with their values, in order. -/
structure Valued (source : String) (declaration : Node) (enum : String)
    (values : List (String × MemberValue)) : Prop where
  name : declaration.children.findSome? (Node.name? source) = some enum
  keys : (declaration.children.filter (isKind .enumMember)).map (memberKey? source) =
    values.map fun entry => some entry.1
  resolves : ∀ {front back : List (String × MemberValue)} {key : String} {value : MemberValue},
    values = front ++ (key, value) :: back →
    ∃ member, (declaration.children.filter (isKind .enumMember))[front.length]? = some member ∧
      Resolves source enum (values.map Prod.fst) front member value

theorem map_of_mapM {α β : Type} {f : α → Option β} :
    ∀ {as : List α} {bs : List β}, as.mapM f = some bs → as.map f = bs.map some
  | [], bs, h => by
    obtain rfl : bs = [] := by simpa using h.symm
    rfl
  | a :: as, bs, h => by
    simp only [List.mapM_cons, Option.bind_eq_bind, Option.bind_eq_some_iff, Option.pure_def,
      Option.some.injEq] at h
    obtain ⟨b, hb, others, hothers, rfl⟩ := h
    rw [List.map_cons, hb, map_of_mapM hothers, List.map_cons]

/-- The text of an enum is that of its members with their values. -/
theorem enumText?_eq_some {baseIndent unit text : String}
    (h : enumText? source declaration baseIndent unit = some text) :
    ∃ enum values, Valued source declaration enum values ∧
      text = enumText enum (declaration.hasToken .exportKeyword) values baseIndent unit := by
  simp only [enumText?, Option.bind_eq_bind, Option.bind_eq_some_iff, Option.pure_def,
    Option.some.injEq] at h
  obtain ⟨enum, hname, keys, hkeys, values, hvalues, rfl⟩ := h
  have hkeys := map_of_mapM hkeys
  have hlength := congrArg List.length hkeys
  rw [List.length_map, List.length_map] at hlength
  have hknown : Knows { enum } enum [] := ⟨rfl, fun name => rfl⟩
  obtain ⟨hfirst, hresolves⟩ := resolves_of_memberValues? hknown hvalues
  rw [List.map_snd_zip (Nat.le_of_eq hlength.symm)] at hfirst
  subst hfirst
  refine ⟨enum, values, ⟨hname, hkeys.trans List.map_map, fun hsplit => ?_⟩, rfl⟩
  obtain ⟨member, hmember, hresolves⟩ := hresolves hsplit
  exact ⟨member, (List.getElem?_zip_eq_some.1 hmember).1, hresolves⟩

theorem Valued.computed {values : List (String × MemberValue)} {key value : String}
    (h : Valued source declaration enum values) (hmem : (key, .computed value) ∈ values) :
    ∃ member ∈ declaration.children, member.isKind .enumMember ∧
      ∃ initializer ∈ member.children, value = initializer.text source ∧
        isMovable source (values.map Prod.fst) initializer := by
  obtain ⟨front, back, hsplit⟩ := List.append_of_mem hmem
  obtain ⟨member, hmember, hresolves⟩ := h.resolves hsplit
  obtain ⟨hchild, hkind⟩ := List.mem_filter.1 (List.mem_of_getElem? hmember)
  cases hresolves with
  | computed hinitializer _ hmovable =>
    exact ⟨member, hchild, hkind, _, List.mem_of_mem_drop (hinitializer ▸ List.mem_cons_self), rfl,
      hmovable⟩

end Untype.Erasure
