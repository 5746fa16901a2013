import Script.Grammar.Expression

/-!
# The grammar of statements

A program is a list of declarations. Declarations stand at top level, in blocks and in function
bodies; every other place takes a statement. An `else` belongs to the nearest `if` that is still
open. A loop with clauses is a block that holds the first clause and a loop with an increment.

- `Stmt.parser`: reads one declaration or statement, with a flag that says whether the place is
  inside a loop of the same function body.
- `Program.parser`: reads declarations up to the end of input.
- `parse`: the program that a stream of tokens is.
-/

namespace Script

namespace Grammar

open Script.Parser

/-! ## Statements without statements inside -/

/-- A variable declaration, from its keyword at the cursor. -/
def declaration (n : Nat) : Parser Stmt := do
  let pos ← here
  advance
  let name ← expectIdent .variableName
  let initial ← match ← accept? (.punct .equal) with
    | none => pure none
    | some _ => some <$> expression n
  let _ ← expect .semicolon .declarationEnd
  pure (.declare name initial pos)

/-- An expression that is a statement. -/
def expressionStatement (n : Nat) : Parser Stmt := do
  let e ← expression n
  let _ ← expect .semicolon .expressionEnd
  pure (.expression e)

/-- An output statement, from its keyword at the cursor. -/
def printStatement (n : Nat) : Parser Stmt := do
  let pos ← here
  advance
  let e ← expression n
  let _ ← expect .semicolon .printEnd
  pure (.print e pos)

/-- A return statement, from its keyword at the cursor. -/
def returnStatement (n : Nat) : Parser Stmt := do
  let pos ← here
  advance
  let value ← if ← nextIs (.punct .semicolon) then pure none else some <$> expression n
  let _ ← expect .semicolon .returnEnd
  pure (.giveBack value pos)

/-- A jump out of a loop or to its next iteration, from its keyword at the cursor; `jump` makes the
statement. The place of a jump is judged before what follows it. -/
def jumpStatement (inLoop : Bool) (jump : Position → Stmt) : Parser Stmt := do
  match ← next? with
  | none => unexpected
  | some t =>
    advance
    if inLoop then
      let _ ← expect .semicolon (.jumpEnd t.lexeme)
      pure (jump t.pos)
    else failAt t.pos (.outsideLoop t.lexeme)

/-- Parameters behind the parameters `done`, latest first. -/
def parameters : Nat → List Param → Parser (List Param)
  | 0, _ => unexpected
  | n + 1, done => do
    if done.length ≥ maxArity then fail .tooManyParameters
    else
      let pos ← here
      let name ← expectIdent .parameterName
      if done.any (·.name = name) then failAt pos (.duplicateParameter name)
      else
        match ← accept? (.punct .comma) with
        | none => pure (⟨name, pos⟩ :: done).reverse
        | some _ => parameters n (⟨name, pos⟩ :: done)

/-- The first clause of a loop with clauses, its semicolon included. -/
def firstClause (n : Nat) : Parser (Option Stmt) := do
  match ← nextKind? with
  | some (.punct .semicolon) =>
    advance
    pure none
  | some (.keyword .varKw) => some <$> declaration n
  | _ => some <$> expressionStatement n

/-! ## Statements with statements inside -/

mutual

/-- A declaration or a statement. -/
def item : Nat → Bool → Parser Stmt
  | 0, _ => unexpected
  | n + 1, inLoop => do
    match ← nextKind? with
    | some (.keyword .varKw) => declaration n
    | some (.keyword .funKw) => functionDeclaration n
    | _ => statement n inLoop

/-- A function declaration, from its keyword at the cursor. A loop around it does not reach into
its body. -/
def functionDeclaration : Nat → Parser Stmt
  | 0 => unexpected
  | n + 1 => do
    let pos ← here
    advance
    let name ← expectIdent .functionName
    let _ ← expect .leftParen .parametersStart
    let params ← if ← nextIs (.punct .rightParen) then pure [] else parameters n []
    let _ ← expect .rightParen .parametersEnd
    let body ← block n false
    pure (.function ⟨name, params, body, pos⟩)

/-- A statement. -/
def statement : Nat → Bool → Parser Stmt
  | 0, _ => unexpected
  | n + 1, inLoop => do
    match ← nextKind? with
    | some (.keyword .printKw) => printStatement n
    | some (.punct .leftBrace) => .block <$> block n inLoop
    | some (.keyword .ifKw) => branchStatement n inLoop
    | some (.keyword .whileKw) => whileStatement n
    | some (.keyword .forKw) => forStatement n
    | some (.keyword .breakKw) => jumpStatement inLoop .exitLoop
    | some (.keyword .continueKw) => jumpStatement inLoop .nextIteration
    | some (.keyword .returnKw) => returnStatement n
    | _ => expressionStatement n

/-- The statements of a block, from its opening brace at the cursor. -/
def block : Nat → Bool → Parser (List Stmt)
  | 0, _ => unexpected
  | n + 1, inLoop => do
    let _ ← expect .leftBrace .blockStart
    items n inLoop []

/-- What follows the statements `done` of a block, latest first, up to its closing brace. -/
def items : Nat → Bool → List Stmt → Parser (List Stmt)
  | 0, _, _ => unexpected
  | n + 1, inLoop, done => do
    match ← nextKind? with
    | none => fail (.missing .blockEnd)
    | some (.punct .rightBrace) =>
      advance
      pure done.reverse
    | some _ =>
      let s ← item n inLoop
      items n inLoop (s :: done)

/-- A conditional statement, from its keyword at the cursor. -/
def branchStatement : Nat → Bool → Parser Stmt
  | 0, _ => unexpected
  | n + 1, inLoop => do
    let pos ← here
    advance
    let _ ← expect .leftParen .branchStart
    let condition ← expression n
    let _ ← expect .rightParen .branchConditionEnd
    let whenTrue ← statement n inLoop
    match ← accept? (.keyword .elseKw) with
    | none => pure (.branch condition whenTrue none pos)
    | some _ =>
      let whenFalse ← statement n inLoop
      pure (.branch condition whenTrue (some whenFalse) pos)

/-- A loop with a condition, from its keyword at the cursor. -/
def whileStatement : Nat → Parser Stmt
  | 0 => unexpected
  | n + 1 => do
    let pos ← here
    advance
    let _ ← expect .leftParen .whileStart
    let condition ← expression n
    let _ ← expect .rightParen .whileConditionEnd
    let body ← statement n true
    pure (.loop condition body none pos)

/-- A loop with clauses, from its keyword at the cursor. A missing condition always holds. -/
def forStatement : Nat → Parser Stmt
  | 0 => unexpected
  | n + 1 => do
    let pos ← here
    advance
    let _ ← expect .leftParen .forStart
    let first ← firstClause n
    let condition ←
      if ← nextIs (.punct .semicolon) then pure (.literal (.bool true) pos) else expression n
    let _ ← expect .semicolon .forConditionEnd
    let increment ← if ← nextIs (.punct .rightParen) then pure none else some <$> expression n
    let _ ← expect .rightParen .forClausesEnd
    let body ← statement n true
    pure (.block (first.toList ++ [.loop condition body increment pos]))

end

/-- What follows the top-level statements `done`, latest first, up to the end of input. -/
def program : Nat → List Stmt → Parser (List Stmt)
  | 0, _ => unexpected
  | n + 1, done => do
    match ← next? with
    | none => pure done.reverse
    | some _ =>
      let s ← item n false
      program n (s :: done)

end Grammar

/-- Reads one declaration or statement; `inLoop` says whether it stands inside a loop of the same
function body. -/
def Stmt.parser (inLoop : Bool) : Parser Stmt :=
  fun c => Grammar.item c.budget inLoop c

/-- Reads declarations and statements up to the end of input. -/
def Program.parser : Parser Program :=
  fun c => Grammar.program c.budget [] c

/-- The program that a stream of tokens is, or the first fault in it. -/
def parse (tokens : List Token) : Except Diagnostic Program :=
  match Program.parser (.ofTokens tokens) with
  | .ok program _ => .ok program
  | .error d _ => .error d

end Script
