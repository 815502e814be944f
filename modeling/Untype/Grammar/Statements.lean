-- Statements.
import Untype.Grammar.Declarations

namespace Untype.Grammar

open Untype.Grammar.Parser

/-- `(e)` after a keyword. -/
def condition (r : Rules) : Parser (List Node) := do
  let opening ← expect .openParen
  let value ← within (fun c => { c with disallowIn := false }) (r .expression)
  let closing ← expect .closeParen
  return [opening, value, closing]

/-! ## Branches and loops -/

def ifStatement (r : Rules) : Parser Node := do
  let word ← eat
  let test ← condition r
  let yes ← r .statement
  if ← tokenIs .elseKeyword then
    let otherwise ← eat
    let no ← r .statement
    return .group .ifStatement (word :: test ++ [yes, otherwise, no])
  else
    return .group .ifStatement (word :: test ++ [yes])

/-- The semicolon after the condition may always be missing. -/
def doStatement (r : Rules) : Parser Node := do
  let word ← eat
  let body ← r .statement
  let loopWord ← expect .whileKeyword
  let test ← condition r
  let stop ← optional .semicolon
  return .group .doStatement (word :: body :: loopWord :: test ++ stop)

/-- A keyword, a condition and a statement. -/
def guarded (r : Rules) (kind : NodeKind) : Parser Node := do
  let word ← eat
  let test ← condition r
  let body ← r .statement
  return .group kind (word :: test ++ [body])

/-- What stands in front of the first semicolon, `of` or `in` of a loop. -/
def loopStart (r : Rules) : Parser (List Node) := do
  if ← tokenIs .semicolon then
    return []
  else
    let start ← within (fun c => { c with disallowIn := true }) do
      if ← ask (·.startsVariables) then variableDeclarations r else r .expression
    return [start]

def expressionUnless (r : Rules) (stop : TokenKind) : Parser (List Node) := do
  if ← tokenIs stop then return [] else return [← r .expression]

/-- What follows the start of a loop, and which loop it makes. -/
def loopHead (r : Rules) : Parser (NodeKind × List Node) := do
  match ← kind with
  | .ofKeyword =>
    let word ← eat
    let value ← r .assignment
    return (.forOfStatement, [word, value])
  | .inKeyword =>
    let word ← eat
    let value ← r .expression
    return (.forInStatement, [word, value])
  | _ =>
    let first ← expect .semicolon
    let test ← expressionUnless r .semicolon
    let second ← expect .semicolon
    let step ← expressionUnless r .closeParen
    return (.forStatement, first :: test ++ second :: step)

def forStatement (r : Rules) : Parser Node := do
  let word ← eat
  let await ← optional .awaitKeyword
  let opening ← expect .openParen
  let start ← loopStart r
  let (kind, head) ← loopHead r
  let closing ← expect .closeParen
  let body ← r .statement
  return .group kind (word :: await ++ opening :: start ++ head ++ [closing, body])

/-! ## Jumps -/

def breakOrContinue (kind : NodeKind) : Parser Node := do
  let word ← eat
  let target ← parseIf (fun s => s.isIdentifier && !s.afterLineBreak) identifier
  let stop ← semicolon
  return .group kind (word :: target ++ stop)

def returnStatement (r : Rules) : Parser Node := do
  let word ← eat
  let value ← parseIf (fun s => !s.canEndStatement) (r .expression)
  let stop ← semicolon
  return .group .returnStatement (word :: value ++ stop)

def throwStatement (r : Rules) : Parser Node := do
  let word ← eat
  if ← ask (·.afterLineBreak) then
    fail .lineBreakForbidden
  else
    let value ← r .expression
    let stop ← semicolon
    return .group .throwStatement (word :: value :: stop)

/-! ## Clauses -/

def endsClause (s : Scanner) : Bool :=
  s.isBlockEnd || s.kind == .caseKeyword || s.kind == .defaultKeyword

def caseClause (r : Rules) : Parser Node := do
  match ← kind with
  | .caseKeyword =>
    let word ← eat
    let value ← r .expression
    let colon ← expect .colon
    let statements ← manyUntil endsClause (r .statement)
    return .group .caseClause (word :: value :: colon :: statements)
  | .defaultKeyword =>
    let word ← eat
    let colon ← expect .colon
    let statements ← manyUntil endsClause (r .statement)
    return .group .defaultClause (word :: colon :: statements)
  | _ => failExpected "case"

def switchStatement (r : Rules) : Parser Node := do
  let word ← eat
  let subject ← condition r
  let opening ← expect .openBrace
  let clauses ← manyUntil (·.isBlockEnd) (caseClause r)
  let closing ← expect .closeBrace
  return .group .switchStatement
    (word :: subject ++ [.group .caseBlock (opening :: clauses ++ [closing])])

def catchClause (r : Rules) : Parser Node := do
  let word ← eat
  let binding ← do
    if ← tokenIs .openParen then
      let opening ← eat
      let name ← variableDeclaration r
      let closing ← expect .closeParen
      pure [opening, name, closing]
    else
      pure []
  let body ← block r
  return .group .catchClause (word :: binding ++ [body])

def tryStatement (r : Rules) : Parser Node := do
  let word ← eat
  let body ← block r
  let handler ← parseIf (·.kind == .catchKeyword) (catchClause r)
  let cleanup ← do
    if ← tokenIs .finallyKeyword then
      let word ← eat
      let body ← block r
      pure [word, body]
    else
      pure []
  if handler.isEmpty && cleanup.isEmpty then failExpected "catch"
  else return .group .tryStatement (word :: body :: handler ++ cleanup)

/-! ## Statements -/

def expressionStatement (r : Rules) : Parser Node := do
  let value ← r .expression
  let stop ← semicolon
  return .group .expressionStatement (value :: stop)

def labeledStatement (r : Rules) : Parser Node := do
  let name ← identifier
  let colon ← expect .colon
  let body ← r .statement
  return .group .labeledStatement [name, colon, body]

def debuggerStatement : Parser Node := do
  let word ← eat
  let stop ← semicolon
  return .group .debuggerStatement (word :: stop)

/-- A declaration, a statement with a label or an expression. -/
def otherStatement (r : Rules) : Parser Node := do
  if ← ask (·.startsDeclaration) then declaration r
  else if ← ask fun s => s.isIdentifier && s.nextIs .colon then labeledStatement r
  else expressionStatement r

def statement (r : Rules) : Parser Node := do
  match ← kind with
  | .semicolon => single .emptyStatement
  | .openBrace => block r
  | .varKeyword => variableStatement r []
  | .letKeyword =>
    if ← ask (·.isLetDeclaration) then variableStatement r [] else otherStatement r
  | .functionKeyword => functionDeclaration r []
  | .classKeyword => classLike r .classDeclaration []
  | .ifKeyword => ifStatement r
  | .doKeyword => doStatement r
  | .whileKeyword => guarded r .whileStatement
  | .withKeyword => guarded r .withStatement
  | .forKeyword => forStatement r
  | .continueKeyword => breakOrContinue .continueStatement
  | .breakKeyword => breakOrContinue .breakStatement
  | .returnKeyword => returnStatement r
  | .switchKeyword => switchStatement r
  | .throwKeyword => throwStatement r
  | .tryKeyword => tryStatement r
  | .debuggerKeyword => debuggerStatement
  | _ => otherStatement r

end Untype.Grammar
