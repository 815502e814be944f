-- The kinds of tokens, their names and fixed spellings, and the classes that
-- the grammar asks about.

namespace Untype

/-- The last part of the name of a constructor, with a capital in front. -/
def constructorName {α : Type} [Repr α] (value : α) : String :=
  (((reprStr value).splitOn ".").getLastD "").capitalize

/-- The kind of a token. Keywords keep the ending `Keyword`. -/
inductive TokenKind where
  | unknown
  | endOfFile
  | numericLiteral
  | bigIntLiteral
  | stringLiteral
  | jsxText
  | regularExpressionLiteral
  | noSubstitutionTemplateLiteral
  | templateHead
  | templateMiddle
  | templateTail
  | openBrace
  | closeBrace
  | openParen
  | closeParen
  | openBracket
  | closeBracket
  | dot
  | dotDotDot
  | semicolon
  | comma
  | questionDot
  | lessThan
  | lessThanSlash
  | greaterThan
  | lessThanEquals
  | greaterThanEquals
  | equalsEquals
  | exclamationEquals
  | equalsEqualsEquals
  | exclamationEqualsEquals
  | equalsGreaterThan
  | plus
  | minus
  | asterisk
  | asteriskAsterisk
  | slash
  | percent
  | plusPlus
  | minusMinus
  | lessThanLessThan
  | greaterThanGreaterThan
  | greaterThanGreaterThanGreaterThan
  | ampersand
  | bar
  | caret
  | exclamation
  | tilde
  | ampersandAmpersand
  | barBar
  | question
  | colon
  | atSign
  | questionQuestion
  | equals
  | plusEquals
  | minusEquals
  | asteriskEquals
  | asteriskAsteriskEquals
  | slashEquals
  | percentEquals
  | lessThanLessThanEquals
  | greaterThanGreaterThanEquals
  | greaterThanGreaterThanGreaterThanEquals
  | ampersandEquals
  | barEquals
  | barBarEquals
  | ampersandAmpersandEquals
  | questionQuestionEquals
  | caretEquals
  | identifier
  | privateIdentifier
  | breakKeyword
  | caseKeyword
  | catchKeyword
  | classKeyword
  | constKeyword
  | continueKeyword
  | debuggerKeyword
  | defaultKeyword
  | deleteKeyword
  | doKeyword
  | elseKeyword
  | enumKeyword
  | exportKeyword
  | extendsKeyword
  | falseKeyword
  | finallyKeyword
  | forKeyword
  | functionKeyword
  | ifKeyword
  | importKeyword
  | inKeyword
  | instanceOfKeyword
  | newKeyword
  | nullKeyword
  | returnKeyword
  | superKeyword
  | switchKeyword
  | thisKeyword
  | throwKeyword
  | trueKeyword
  | tryKeyword
  | typeOfKeyword
  | varKeyword
  | voidKeyword
  | whileKeyword
  | withKeyword
  | implementsKeyword
  | interfaceKeyword
  | letKeyword
  | packageKeyword
  | privateKeyword
  | protectedKeyword
  | publicKeyword
  | staticKeyword
  | yieldKeyword
  | abstractKeyword
  | accessorKeyword
  | asKeyword
  | assertsKeyword
  | assertKeyword
  | anyKeyword
  | asyncKeyword
  | awaitKeyword
  | booleanKeyword
  | constructorKeyword
  | declareKeyword
  | getKeyword
  | inferKeyword
  | intrinsicKeyword
  | isKeyword
  | keyOfKeyword
  | moduleKeyword
  | namespaceKeyword
  | neverKeyword
  | outKeyword
  | readonlyKeyword
  | requireKeyword
  | numberKeyword
  | objectKeyword
  | satisfiesKeyword
  | setKeyword
  | stringKeyword
  | symbolKeyword
  | typeKeyword
  | undefinedKeyword
  | uniqueKeyword
  | unknownKeyword
  | usingKeyword
  | fromKeyword
  | globalKeyword
  | bigIntKeyword
  | overrideKeyword
  | ofKeyword
deriving DecidableEq, Repr, Inhabited

namespace TokenKind

/-! ## Spellings -/

/-- The punctuation that a plain scan finds, longer spellings first. A plain scan takes one
`>` at a time, so that nested type argument lists close one by one. -/
def punctuators : List (List Char × TokenKind) := [
  (['.', '.', '.'], .dotDotDot), (['=', '=', '='], .equalsEqualsEquals),
  (['!', '=', '='], .exclamationEqualsEquals), (['*', '*', '='], .asteriskAsteriskEquals),
  (['<', '<', '='], .lessThanLessThanEquals), (['|', '|', '='], .barBarEquals),
  (['&', '&', '='], .ampersandAmpersandEquals), (['?', '?', '='], .questionQuestionEquals),
  (['?', '.'], .questionDot), (['<', '='], .lessThanEquals), (['=', '='], .equalsEquals),
  (['!', '='], .exclamationEquals), (['=', '>'], .equalsGreaterThan),
  (['*', '*'], .asteriskAsterisk), (['+', '+'], .plusPlus), (['-', '-'], .minusMinus),
  (['<', '<'], .lessThanLessThan), (['&', '&'], .ampersandAmpersand), (['|', '|'], .barBar),
  (['?', '?'], .questionQuestion), (['+', '='], .plusEquals), (['-', '='], .minusEquals),
  (['*', '='], .asteriskEquals), (['/', '='], .slashEquals), (['%', '='], .percentEquals),
  (['&', '='], .ampersandEquals), (['|', '='], .barEquals), (['^', '='], .caretEquals),
  (['\x7b'], .openBrace), (['\x7d'], .closeBrace), (['('], .openParen), ([')'], .closeParen),
  (['['], .openBracket), ([']'], .closeBracket), (['.'], .dot), ([';'], .semicolon),
  ([','], .comma), (['<'], .lessThan), (['>'], .greaterThan), (['+'], .plus), (['-'], .minus),
  (['*'], .asterisk), (['/'], .slash), (['%'], .percent), (['&'], .ampersand), (['|'], .bar),
  (['^'], .caret), (['!'], .exclamation), (['~'], .tilde), (['?'], .question), ([':'], .colon),
  (['@'], .atSign), (['='], .equals)]

/-- The punctuation that only a scan on request finds. -/
def requestedPunctuators : List (List Char × TokenKind) := [
  (['<', '/'], .lessThanSlash), (['>', '='], .greaterThanEquals),
  (['>', '>'], .greaterThanGreaterThan), (['>', '>', '>'], .greaterThanGreaterThanGreaterThan),
  (['>', '>', '='], .greaterThanGreaterThanEquals),
  (['>', '>', '>', '='], .greaterThanGreaterThanGreaterThanEquals)]

/-- The words that are never names. -/
def reservedWords : List (String × TokenKind) := [
  ("break", .breakKeyword), ("case", .caseKeyword), ("catch", .catchKeyword),
  ("class", .classKeyword), ("const", .constKeyword), ("continue", .continueKeyword),
  ("debugger", .debuggerKeyword), ("default", .defaultKeyword), ("delete", .deleteKeyword),
  ("do", .doKeyword), ("else", .elseKeyword), ("enum", .enumKeyword), ("export", .exportKeyword),
  ("extends", .extendsKeyword), ("false", .falseKeyword), ("finally", .finallyKeyword),
  ("for", .forKeyword), ("function", .functionKeyword), ("if", .ifKeyword),
  ("import", .importKeyword), ("in", .inKeyword), ("instanceof", .instanceOfKeyword),
  ("new", .newKeyword), ("null", .nullKeyword), ("return", .returnKeyword),
  ("super", .superKeyword), ("switch", .switchKeyword), ("this", .thisKeyword),
  ("throw", .throwKeyword), ("true", .trueKeyword), ("try", .tryKeyword),
  ("typeof", .typeOfKeyword), ("var", .varKeyword), ("void", .voidKeyword),
  ("while", .whileKeyword), ("with", .withKeyword)]

/-- The words that mean something in some places and are names elsewhere. -/
def contextualWords : List (String × TokenKind) := [
  ("implements", .implementsKeyword), ("interface", .interfaceKeyword), ("let", .letKeyword),
  ("package", .packageKeyword), ("private", .privateKeyword), ("protected", .protectedKeyword),
  ("public", .publicKeyword), ("static", .staticKeyword), ("yield", .yieldKeyword),
  ("abstract", .abstractKeyword), ("accessor", .accessorKeyword), ("as", .asKeyword),
  ("asserts", .assertsKeyword), ("assert", .assertKeyword), ("any", .anyKeyword),
  ("async", .asyncKeyword), ("await", .awaitKeyword), ("boolean", .booleanKeyword),
  ("constructor", .constructorKeyword), ("declare", .declareKeyword), ("get", .getKeyword),
  ("infer", .inferKeyword), ("intrinsic", .intrinsicKeyword), ("is", .isKeyword),
  ("keyof", .keyOfKeyword), ("module", .moduleKeyword), ("namespace", .namespaceKeyword),
  ("never", .neverKeyword), ("out", .outKeyword), ("readonly", .readonlyKeyword),
  ("require", .requireKeyword), ("number", .numberKeyword), ("object", .objectKeyword),
  ("satisfies", .satisfiesKeyword), ("set", .setKeyword), ("string", .stringKeyword),
  ("symbol", .symbolKeyword), ("type", .typeKeyword), ("undefined", .undefinedKeyword),
  ("unique", .uniqueKeyword), ("unknown", .unknownKeyword), ("using", .usingKeyword),
  ("from", .fromKeyword), ("global", .globalKeyword), ("bigint", .bigIntKeyword),
  ("override", .overrideKeyword), ("of", .ofKeyword)]

def keywords : List (String × TokenKind) := reservedWords ++ contextualWords

def ofKeyword? (word : String) : Option TokenKind := keywords.lookup word

/-- The spelling of punctuation and keywords. Other tokens have none of their own. -/
def text? (kind : TokenKind) : Option String :=
  match (punctuators ++ requestedPunctuators).find? (·.2 == kind) with
  | some (spelling, _) => some (String.ofList spelling)
  | none => (keywords.find? (·.2 == kind)).map (·.1)

/-- The name of a kind in listings: punctuation and the end of the text have the ending `Token`. -/
def name : TokenKind → String
  | .atSign => "AtToken"
  | .endOfFile => "EndOfFileToken"
  | kind =>
    if (punctuators ++ requestedPunctuators).any (·.2 == kind) then constructorName kind ++ "Token"
    else constructorName kind

/-! ## Classes -/

def isReservedWord (kind : TokenKind) : Bool := reservedWords.any (·.2 == kind)

/-- A word that is a name outside the places where it means something. -/
def isContextualWord (kind : TokenKind) : Bool := contextualWords.any (·.2 == kind)

def isWord (kind : TokenKind) : Bool := kind.isReservedWord || kind.isContextualWord

/-- A name, or a keyword that may stand as one. -/
def isIdentifierLike (kind : TokenKind) : Bool := kind == .identifier || kind.isContextualWord

/-- A name or any keyword: what may follow a dot. -/
def isIdentifierOrKeyword (kind : TokenKind) : Bool := kind == .identifier || kind.isWord

def isLiteral : TokenKind → Bool
  | .numericLiteral | .bigIntLiteral | .stringLiteral | .regularExpressionLiteral
  | .noSubstitutionTemplateLiteral => true
  | _ => false

def isAssignmentOperator : TokenKind → Bool
  | .equals | .plusEquals | .minusEquals | .asteriskEquals | .asteriskAsteriskEquals
  | .slashEquals | .percentEquals | .lessThanLessThanEquals | .greaterThanGreaterThanEquals
  | .greaterThanGreaterThanGreaterThanEquals | .ampersandEquals | .barEquals | .barBarEquals
  | .ampersandAmpersandEquals | .questionQuestionEquals | .caretEquals => true
  | _ => false

/-- A modifier that says something about types only. -/
def isTypeModifier : TokenKind → Bool
  | .publicKeyword | .privateKeyword | .protectedKeyword | .readonlyKeyword | .overrideKeyword
  | .abstractKeyword | .declareKeyword => true
  | _ => false

def isModifier : TokenKind → Bool
  | .exportKeyword | .defaultKeyword | .staticKeyword | .asyncKeyword | .constKeyword
  | .accessorKeyword | .inKeyword | .outKeyword => true
  | kind => kind.isTypeModifier

end TokenKind

end Untype
