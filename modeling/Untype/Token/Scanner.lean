-- Cutting a text into tokens. Each token owns the trivia in front of it, so
-- the tokens of a text lie side by side without a gap. The grammar may ask
-- to read the current token anew where its place gives it another meaning.
import Untype.Diagnostic
import Untype.Token.Cursor
import Untype.Token.Kind

namespace Untype

open Untype.Text

/-- What is known about a token besides its kind and place. -/
structure TokenFlags where
  lineBreak : Bool := false
  unterminated : Bool := false
  /-- A name with an escape, which is no keyword whatever it spells. -/
  unicodeEscape : Bool := false
  documentation : Bool := false
  hex : Bool := false
  binaryOrOctal : Bool := false
deriving DecidableEq, Repr

/-- The current token and what was found so far. The token lies between `start` and `here`,
its trivia between `full` and `start`. -/
structure Scanner where
  full : Cursor
  start : Cursor
  here : Cursor
  kind : TokenKind
  flags : TokenFlags
  /-- Oldest first. -/
  findings : List Finding
deriving DecidableEq, Repr

/-- A state to come back to. Of the findings it keeps the number. -/
structure Snapshot where
  full : Cursor
  start : Cursor
  here : Cursor
  kind : TokenKind
  flags : TokenFlags
  findingCount : Nat
deriving DecidableEq, Repr

/-! ## Trivia -/

inductive TriviaMode where
  | between
  | lineComment
  | blockComment (start : Nat)

structure TriviaEnd where
  stop : Cursor
  flags : TokenFlags
  findings : List Finding

/-- The text after the opening of a block comment makes it a documentation comment. -/
def opensDocumentation : List Char → Bool
  | '*' :: '/' :: _ => false
  | '*' :: _ => true
  | _ => false

/-- Passes over blanks, line breaks and comments. A first line that starts with `#!` counts
as a comment. -/
def triviaEnd (mode : TriviaMode) (flags : TokenFlags) (offset : Nat) (cs : List Char) :
    TriviaEnd :=
  match mode, cs with
  | .blockComment start, [] =>
    ⟨⟨offset, []⟩, flags, [⟨start, offset - start, .commentEndExpected⟩]⟩
  | .blockComment _, '*' :: '/' :: rest => triviaEnd .between flags (offset + 2) rest
  | .blockComment start, c :: rest =>
    let flags := if isLineBreak c then { flags with lineBreak := true } else flags
    triviaEnd (.blockComment start) flags (offset + c.utf8Size) rest
  | .lineComment, c :: rest =>
    if isLineBreak c then
      triviaEnd .between { flags with lineBreak := true } (offset + c.utf8Size) rest
    else
      triviaEnd .lineComment flags (offset + c.utf8Size) rest
  | .between, '/' :: '/' :: rest => triviaEnd .lineComment flags (offset + 2) rest
  | .between, '/' :: '*' :: rest =>
    let flags := if opensDocumentation rest then { flags with documentation := true } else flags
    triviaEnd (.blockComment offset) flags (offset + 2) rest
  | .between, c :: rest =>
    if isLineBreak c then
      triviaEnd .between { flags with lineBreak := true } (offset + c.utf8Size) rest
    else if isBlank c then
      triviaEnd .between flags (offset + c.utf8Size) rest
    else if c == '#' && offset == 0 && rest.head? == some '!' then
      triviaEnd .lineComment flags (offset + 1) rest
    else
      ⟨⟨offset, c :: rest⟩, flags, []⟩
  | _, [] => ⟨⟨offset, []⟩, flags, []⟩

/-! ## Single tokens -/

/-- A token that was read: its end, its kind, and what it adds to flags and findings. -/
structure Reading where
  stop : Cursor
  kind : TokenKind
  flags : TokenFlags
  findings : List Finding

/-- One character that no token starts with. -/
def readUnknown (flags : TokenFlags) (start : Cursor) : Reading :=
  let stop := start.skip 1
  ⟨stop, .unknown, flags, [⟨start.offset, stop.offset - start.offset, .invalidCharacter⟩]⟩

def readString (quote : Char) (flags : TokenFlags) (start : Cursor) : Reading :=
  let found := stringEnd quote (start.offset + 1) (start.rest.drop 1)
  if found.terminated then
    ⟨found.stop, .stringLiteral, flags, []⟩
  else
    ⟨found.stop, .stringLiteral, { flags with unterminated := true },
      [⟨start.offset, found.stop.offset - start.offset, .unterminatedString⟩]⟩

/-- A piece of a template; `start` is at its opening backtick, or at the brace that ends a
substitution. -/
def readTemplate (opensTemplate : Bool) (flags : TokenFlags) (start : Cursor) : Reading :=
  let (stop, reason) := templateEnd (start.offset + 1) (start.rest.drop 1)
  let last := if opensTemplate then TokenKind.noSubstitutionTemplateLiteral else .templateTail
  match reason with
  | .backtick => ⟨stop, last, flags, []⟩
  | .substitution =>
    ⟨stop, if opensTemplate then .templateHead else .templateMiddle, flags, []⟩
  | .endOfText =>
    ⟨stop, last, { flags with unterminated := true },
      [⟨start.offset, stop.offset - start.offset, .unterminatedTemplate⟩]⟩

/-- The digits that the letter after a leading zero asks for, and the flag that it sets. -/
def baseDigits (flags : TokenFlags) (c : Char) : Option ((Char → Bool) × TokenFlags) :=
  if c == 'x' || c == 'X' then some (isHexDigit, { flags with hex := true })
  else if c == 'o' || c == 'O' then some (isOctalDigit, { flags with binaryOrOctal := true })
  else if c == 'b' || c == 'B' then some (isBinaryDigit, { flags with binaryOrOctal := true })
  else none

/-- A number, with the `n` that makes it a big one. -/
def readNumber (flags : TokenFlags) (start : Cursor) : Reading :=
  let based := match start.rest with
    | '0' :: c :: _ => baseDigits flags c
    | _ => none
  let (digitsEnd, flags, findings) := match based with
    | some (isValid, flags) =>
      let stop := (start.skip 2).skipDigits isValid
      let findings : List Finding := if stop.offset == start.offset + 2 then
          [⟨start.offset, stop.offset - start.offset, .hexDigitExpected⟩]
        else
          []
      (stop, flags, findings)
    | none => (start.skipDecimal, flags, [])
  if digitsEnd.rest.head? == some 'n' then
    ⟨digitsEnd.skip 1, .bigIntLiteral, flags, findings⟩
  else
    ⟨digitsEnd, .numericLiteral, flags, findings⟩

def escapeFindings (name : NameEnd) : List Finding :=
  name.badEscapes.map fun (start, stop) => ⟨start, stop - start, .hexDigitExpected⟩

/-- A name or a keyword. A backslash that starts no escape is a fault of its own. -/
def readName (flags : TokenFlags) (start : Cursor) : Reading :=
  let name := nameEnd start
  if name.stop.offset == start.offset then
    readUnknown flags start
  else
    let kind := if name.hasEscape then .identifier
      else (TokenKind.ofKeyword? (start.textTo name.stop)).getD .identifier
    ⟨name.stop, kind, { flags with unicodeEscape := name.hasEscape }, escapeFindings name⟩

def readPrivateName (flags : TokenFlags) (start : Cursor) : Reading :=
  if (start.rest.drop 1).head?.any fun c => isNameStart c || c == '\\' then
    let name := nameEnd (start.skip 1)
    ⟨name.stop, .privateIdentifier, { flags with unicodeEscape := name.hasEscape },
      escapeFindings name⟩
  else
    readUnknown flags start

/-- The longest punctuation in front. `?.` before a digit is a question mark. -/
def punctuatorAt (cs : List Char) : Option (Nat × TokenKind) :=
  match cs with
  | '?' :: '.' :: c :: _ => if isDigit c then some (1, .question) else some (2, .questionDot)
  | _ =>
    match TokenKind.punctuators.find? (·.1.isPrefixOf cs) with
    | some (spelling, kind) => some (spelling.length, kind)
    | none => none

/-- The token at a place where no trivia is in front. -/
def readToken (flags : TokenFlags) (start : Cursor) : Reading :=
  match start.rest with
  | [] => ⟨start, .endOfFile, flags, []⟩
  | c :: rest =>
    if c == '\x22' || c == '\x27' then readString c flags start
    else if c == '\x60' then readTemplate true flags start
    else if isDigit c || (c == '.' && rest.head?.any isDigit) then readNumber flags start
    else
      match punctuatorAt start.rest with
      | some (length, kind) => ⟨start.skip length, kind, flags, []⟩
      | none =>
        if c == '#' then readPrivateName flags start
        else if c == '\\' || isNameStart c then readName flags start
        else readUnknown flags start

/-! ## Scanning -/

namespace Scanner

/-- Before the first token. -/
def ofText (text : String) : Scanner :=
  let start := Cursor.ofText text
  ⟨start, start, start, .unknown, {}, []⟩

def text (s : Scanner) : String := s.start.textTo s.here

def trivia (s : Scanner) : String := s.full.textTo s.start

def afterLineBreak (s : Scanner) : Bool := s.flags.lineBreak

def scan (s : Scanner) : Scanner :=
  let trivia := triviaEnd .between {} s.here.offset s.here.rest
  let token := readToken trivia.flags trivia.stop
  { full := s.here
    start := trivia.stop
    here := token.stop
    kind := token.kind
    flags := token.flags
    findings := s.findings ++ (trivia.findings ++ token.findings) }

def reread (s : Scanner) (token : Reading) : Scanner :=
  { s with
    here := token.stop
    kind := token.kind
    flags := token.flags
    findings := s.findings ++ token.findings }

/-- Reads `/` or `/=` as the start of a regular expression. -/
def rescanSlash (s : Scanner) : Scanner :=
  if s.kind == .slash || s.kind == .slashEquals then
    let body := regularExpressionEnd false (s.start.offset + 1) (s.start.rest.drop 1)
    let stop := Cursor.skipWhile isNamePart body.stop.offset body.stop.rest
    if body.terminated then
      s.reread ⟨stop, .regularExpressionLiteral, s.flags, []⟩
    else
      s.reread ⟨stop, .regularExpressionLiteral, { s.flags with unterminated := true },
        [⟨s.start.offset, body.stop.offset - s.start.offset, .unterminatedRegularExpression⟩]⟩
  else
    s

/-- Reads the brace that ends a substitution as the next piece of its template. -/
def rescanTemplate (s : Scanner) : Scanner :=
  if s.kind == .closeBrace then s.reread (readTemplate false s.flags s.start) else s

/-- Joins `>` with what follows to an operator, if it makes one. -/
def rescanGreater (s : Scanner) : Scanner :=
  let join (length : Nat) (kind : TokenKind) : Scanner :=
    s.reread ⟨s.here.skip length, kind, s.flags, []⟩
  if s.kind == .greaterThan then
    match s.here.rest with
    | '>' :: '>' :: '=' :: _ => join 3 .greaterThanGreaterThanGreaterThanEquals
    | '>' :: '>' :: _ => join 2 .greaterThanGreaterThanGreaterThan
    | '>' :: '=' :: _ => join 2 .greaterThanGreaterThanEquals
    | '>' :: _ => join 1 .greaterThanGreaterThan
    | '=' :: _ => join 1 .greaterThanEquals
    | _ => s
  else
    s

/-- Goes on to the next token among the children of an element: text up to a brace or `<` is
one token, and there is no trivia. -/
def scanJsx (s : Scanner) : Scanner :=
  let move (stop : Cursor) (kind : TokenKind) : Scanner :=
    { s with full := s.here, start := s.here, here := stop, kind, flags := {} }
  match s.here.rest with
  | [] => move s.here .endOfFile
  | '<' :: '/' :: _ => move (s.here.skip 2) .lessThanSlash
  | '<' :: _ => move (s.here.skip 1) .lessThan
  | '\x7b' :: _ => move (s.here.skip 1) .openBrace
  | cs => move (Cursor.skipWhile (fun c => c != '\x7b' && c != '<') s.here.offset cs) .jsxText

/-- Extends a name by parts with hyphens. -/
def rescanJsxName (s : Scanner) : Scanner :=
  if s.kind.isIdentifierOrKeyword then
    let stop := Cursor.skipWhile (fun c => c == '-' || isNamePart c) s.here.offset s.here.rest
    s.reread ⟨stop, .identifier, s.flags, []⟩
  else
    s

/-- Reads a string as the value of an attribute. What was found in it before does not
count. -/
def rescanJsxValue (s : Scanner) : Scanner :=
  match s.kind, s.start.rest with
  | .stringLiteral, quote :: rest =>
    let s := { s with findings := s.findings.filter (·.start < s.start.offset) }
    let found := attributeEnd quote (s.start.offset + 1) rest
    if found.terminated then
      s.reread ⟨found.stop, .stringLiteral, { s.flags with unterminated := false }, []⟩
    else
      s.reread ⟨found.stop, .stringLiteral, { s.flags with unterminated := true },
        [⟨s.start.offset, found.stop.offset - s.start.offset, .unterminatedString⟩]⟩
  | _, _ => s

/-! ## Coming back -/

def save (s : Scanner) : Snapshot :=
  ⟨s.full, s.start, s.here, s.kind, s.flags, s.findings.length⟩

/-- Comes back to a saved state. Findings made since then go. -/
def restore (s : Scanner) (saved : Snapshot) : Scanner :=
  ⟨saved.full, saved.start, saved.here, saved.kind, saved.flags,
    s.findings.take saved.findingCount⟩

/-- All tokens from the current place to the end of the text, which is the last of them. The
fuel is more than the number of characters. -/
def scanAllFrom : Nat → Scanner → List Scanner
  | 0, _ => []
  | fuel + 1, s =>
    let next := s.scan
    if next.kind == .endOfFile then [next] else next :: scanAllFrom fuel next

def scanAll (s : Scanner) : List Scanner := scanAllFrom (s.here.rest.length + 1) s

end Scanner

end Untype
