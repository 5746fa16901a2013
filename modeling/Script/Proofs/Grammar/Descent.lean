import Script.Grammar.Statement
import Script.Proofs.Grammar.Tape

/-!
# The grammar read without a bound

The same grammar by recursive descent over a tape: one level of operators calls the next, loops go
on until they meet a token that ends them, and nothing counts how deep readers nest. Whether such a
reader comes back is not a matter of its definition: the readers are the least solution of their
equations, and one that does not come back has no result. What is to be read is a goal, and the
reader for it goes by other goals.

- `Descent`: a reader of a tape.
- `Descent.next`, `Descent.accept?`, `Descent.expect` and the like: readers of one token.
- `Descent.ExprGoal`, `Descent.StmtGoal`: the goals, and the readers of all of them.
- `Descent.expression`, `Descent.statement`, `Descent.declaration`, `Descent.program`: the grammar.
- `Descent.expressions`: expressions one after the other, also behind faults.
-/

namespace Script

/-- A reader of a tape. It has no result if its recursion does not end. A diagnostic leaves the tape
where the fault was found. -/
abbrev Descent := ExceptT Diagnostic (StateT Tape Option)

namespace Descent

variable {α : Type}

/-! ## One token -/

/-- The next token. -/
def next : Descent Token := fun t => some (.ok t.next, t)

/-- Leaves the next token. -/
def advance : Descent Unit := fun t => some (.ok (), t.advance)

/-- Ends with a fault at a given position. -/
def failAt (pos : Position) (fault : Fault) : Descent α := fun t => some (.error ⟨fault, pos⟩, t)

/-- Ends with a fault at the next token. -/
def fail (fault : Fault) : Descent α := do
  let u ← next
  failAt u.pos fault

/-- Ends because nothing of the grammar begins with the next token. -/
def unexpected : Descent α := do
  let u ← next
  failAt u.pos (.unexpectedToken (if u.kind = .eof then "end of input" else u.lexeme))

/-- Whether the next token has a given kind. -/
def nextIs (kind : TokenKind) : Descent Bool := do
  let u ← next
  pure (u.kind = kind)

/-- Leaves the next token and gives its position, if it has a given kind. -/
def accept? (kind : TokenKind) : Descent (Option Position) := do
  let u ← next
  if u.kind = kind then
    advance
    pure (some u.pos)
  else pure none

/-- Leaves a sign that has to be there and gives its position. -/
def expect (sign : Punct) (what : Expectation) : Descent Position := do
  let u ← next
  if u.kind = .punct sign then
    advance
    pure u.pos
  else fail (.missing what)

/-- Leaves an identifier that has to be there and gives its name. -/
def expectIdent (what : Expectation) : Descent String := do
  let u ← next
  match u.kind with
  | .ident name =>
    advance
    pure name
  | _ => fail (.missing what)

/-- Leaves a keyword and gives its position. -/
def keyword : Descent Position := do
  let u ← next
  advance
  pure u.pos

/-! ## Expressions -/

/-- What a reader of expressions is to read. -/
inductive ExprGoal : Type → Type
  /-- An expression. -/
  | expression : ExprGoal Expr
  /-- Operands joined by operators of the given number of levels, counted from the tightest. -/
  | operation (tier : Nat) : ExprGoal Expr
  /-- What follows the operand `left` at one level: operators of this level, each with an operand of
  the levels that bind tighter. -/
  | operators (tier : Nat) (left : Expr) : ExprGoal Expr
  /-- An operand with the operators in front of it and the calls behind it. -/
  | unary : ExprGoal Expr
  /-- What follows `callee`: argument lists, each a call of what was read before it. -/
  | calls (callee : Expr) : ExprGoal Expr
  /-- Arguments behind the arguments `done`, latest first. -/
  | arguments (done : List Expr) : ExprGoal (List Expr)
  /-- A single token that is an expression, or an expression in parentheses. -/
  | closed : ExprGoal Expr

namespace ExprGoal

/-- The reader for a goal. -/
def read {α : Type} : ExprGoal α → Descent α
  | expression => do
    let target ← operation 6 |>.read
    match ← accept? (.punct .equal) with
    | none => pure target
    | some pos =>
      -- a fault in the value is found before one in the target
      let value ← expression |>.read
      match target with
      | .ident name start => pure (.assign name value start)
      | _ => failAt pos .invalidTarget
  | operation 0 => unary |>.read
  | operation (tier + 1) => do
    let left ← operation tier |>.read
    operators tier left |>.read
  | operators tier left => do
    let u ← next
    match u.kind.operator? with
    | none => pure left
    | some op =>
      if op.level + tier = 6 then
        advance
        let right ← operation tier |>.read
        operators tier (op.join left right u.pos) |>.read
      else pure left
  | unary => do
    let u ← next
    match u.kind.unaryOp? with
    | some op =>
      advance
      let operand ← unary |>.read
      pure (.unary op operand u.pos)
    | none =>
      let callee ← closed |>.read
      calls callee |>.read
  | calls callee => do
    match ← accept? (.punct .leftParen) with
    | none => pure callee
    | some _ =>
      let args ← if ← nextIs (.punct .rightParen) then pure [] else arguments [] |>.read
      let pos ← expect .rightParen .argumentsEnd
      calls (.call callee args pos) |>.read
  | arguments done => do
    if done.length ≥ maxArity then fail .tooManyArguments
    else
      let arg ← expression |>.read
      match ← accept? (.punct .comma) with
      | none => pure (arg :: done).reverse
      | some _ => arguments (arg :: done) |>.read
  | closed => do
    let u ← next
    match u.kind.leaf? u.pos with
    | some e =>
      advance
      pure e
    | none =>
      if u.kind = .punct .leftParen then
        advance
        let inner ← expression |>.read
        let _ ← expect .rightParen .groupEnd
        pure (.group inner u.pos)
      else unexpected
partial_fixpoint

end ExprGoal

/-- An expression. -/
def expression : Descent Expr := ExprGoal.expression.read

/-! ## Statements without statements inside -/

/-- A variable declaration, from its keyword on. -/
def variableDeclaration : Descent Stmt := do
  let pos ← keyword
  let name ← expectIdent .variableName
  let initial ← match ← accept? (.punct .equal) with
    | none => pure none
    | some _ => some <$> expression
  let _ ← expect .semicolon .declarationEnd
  pure (.declare name initial pos)

/-- An expression that is a statement. -/
def expressionStatement : Descent Stmt := do
  let e ← expression
  let _ ← expect .semicolon .expressionEnd
  pure (.expression e)

/-- An output statement, from its keyword on. -/
def printStatement : Descent Stmt := do
  let pos ← keyword
  let e ← expression
  let _ ← expect .semicolon .printEnd
  pure (.print e pos)

/-- A return statement, from its keyword on. -/
def returnStatement : Descent Stmt := do
  let pos ← keyword
  let value ← if ← nextIs (.punct .semicolon) then pure none else some <$> expression
  let _ ← expect .semicolon .returnEnd
  pure (.giveBack value pos)

/-- A jump, from its keyword on. Its place is judged before what follows it. -/
def jumpStatement (inLoop : Bool) (jump : Position → Stmt) : Descent Stmt := do
  let u ← next
  advance
  if inLoop then
    let _ ← expect .semicolon (.jumpEnd u.lexeme)
    pure (jump u.pos)
  else failAt u.pos (.outsideLoop u.lexeme)

/-- The first clause of a loop with clauses, its semicolon included. -/
def firstClause : Descent (Option Stmt) := do
  let u ← next
  match u.kind with
  | .punct .semicolon =>
    advance
    pure none
  | .keyword .varKw => some <$> variableDeclaration
  | _ => some <$> expressionStatement

/-! ## Statements with statements inside -/

/-- What a reader of statements is to read; `inLoop` says whether it stands inside a loop of the
same function body. What has been read of a list already comes latest first. -/
inductive StmtGoal : Type → Type
  /-- A declaration or a statement. -/
  | declaration (inLoop : Bool) : StmtGoal Stmt
  /-- A function declaration, from its keyword on. -/
  | function : StmtGoal Stmt
  /-- Parameters behind the parameters `done`. -/
  | parameters (done : List Param) : StmtGoal (List Param)
  /-- A statement. -/
  | statement (inLoop : Bool) : StmtGoal Stmt
  /-- The statements of a block, from its opening brace on. -/
  | block (inLoop : Bool) : StmtGoal (List Stmt)
  /-- Declarations and statements behind the statements `done` of a block, up to a closing brace or
  an end of input. -/
  | items (inLoop : Bool) (done : List Stmt) : StmtGoal (List Stmt)
  /-- A conditional statement, from its keyword on. -/
  | branch (inLoop : Bool) : StmtGoal Stmt
  /-- A loop with a condition, from its keyword on. -/
  | whileLoop : StmtGoal Stmt
  /-- A loop with clauses, from its keyword on. -/
  | forLoop : StmtGoal Stmt
  /-- Declarations and statements behind the statements `done`, up to an end of input. -/
  | program (done : List Stmt) : StmtGoal Program

namespace StmtGoal

/-- The reader for a goal. -/
def read {α : Type} : StmtGoal α → Descent α
  | declaration inLoop => do
    let u ← next
    match u.kind with
    | .keyword .varKw => variableDeclaration
    | .keyword .funKw => function |>.read
    | _ => statement inLoop |>.read
  | function => do
    let pos ← keyword
    let name ← expectIdent .functionName
    let _ ← expect .leftParen .parametersStart
    let params ← if ← nextIs (.punct .rightParen) then pure [] else parameters [] |>.read
    let _ ← expect .rightParen .parametersEnd
    -- a loop around the declaration is not around the body
    let body ← block false |>.read
    pure (.function ⟨name, params, body, pos⟩)
  | parameters done => do
    if done.length ≥ maxArity then fail .tooManyParameters
    else
      let u ← next
      let name ← expectIdent .parameterName
      if done.any (·.name = name) then failAt u.pos (.duplicateParameter name)
      else
        match ← accept? (.punct .comma) with
        | none => pure (⟨name, u.pos⟩ :: done).reverse
        | some _ => parameters (⟨name, u.pos⟩ :: done) |>.read
  | statement inLoop => do
    let u ← next
    match u.kind with
    | .keyword .printKw => printStatement
    | .punct .leftBrace =>
      let body ← block inLoop |>.read
      pure (.block body)
    | .keyword .ifKw => branch inLoop |>.read
    | .keyword .whileKw => whileLoop |>.read
    | .keyword .forKw => forLoop |>.read
    | .keyword .breakKw => jumpStatement inLoop .exitLoop
    | .keyword .continueKw => jumpStatement inLoop .nextIteration
    | .keyword .returnKw => returnStatement
    | _ => expressionStatement
  | block inLoop => do
    let _ ← expect .leftBrace .blockStart
    let body ← items inLoop [] |>.read
    let _ ← expect .rightBrace .blockEnd
    pure body
  | items inLoop done => do
    let u ← next
    if u.kind = .punct .rightBrace ∨ u.kind = .eof then pure done.reverse
    else
      let s ← declaration inLoop |>.read
      items inLoop (s :: done) |>.read
  | branch inLoop => do
    let pos ← keyword
    let _ ← expect .leftParen .branchStart
    let condition ← expression
    let _ ← expect .rightParen .branchConditionEnd
    let whenTrue ← statement inLoop |>.read
    match ← accept? (.keyword .elseKw) with
    | none => pure (.branch condition whenTrue none pos)
    | some _ =>
      let whenFalse ← statement inLoop |>.read
      pure (.branch condition whenTrue (some whenFalse) pos)
  | whileLoop => do
    let pos ← keyword
    let _ ← expect .leftParen .whileStart
    let condition ← expression
    let _ ← expect .rightParen .whileConditionEnd
    let body ← statement true |>.read
    pure (.loop condition body none pos)
  | forLoop => do
    let pos ← keyword
    let _ ← expect .leftParen .forStart
    let first ← firstClause
    -- a missing condition always holds
    let condition ←
      if ← nextIs (.punct .semicolon) then pure (.literal (.bool true) pos) else expression
    let _ ← expect .semicolon .forConditionEnd
    let increment ← if ← nextIs (.punct .rightParen) then pure none else some <$> expression
    let _ ← expect .rightParen .forClausesEnd
    let body ← statement true |>.read
    pure (.block (first.toList ++ [.loop condition body increment pos]))
  | program done => do
    let u ← next
    if u.kind = .eof then pure done.reverse
    else
      let s ← declaration false |>.read
      program (s :: done) |>.read
partial_fixpoint

end StmtGoal

/-- A statement, inside a loop or not. -/
def statement (inLoop : Bool) : Descent Stmt := (StmtGoal.statement inLoop).read

/-- A declaration or a statement, inside a loop or not. -/
def declaration (inLoop : Bool) : Descent Stmt := (StmtGoal.declaration inLoop).read

/-- Everything up to an end of input. -/
def program : Descent Program := (StmtGoal.program []).read

/-- The results of `n` expressions read one after the other, each from where the one before it
ended. -/
def expressions : Nat → Tape → Option (List (Except Diagnostic Expr) × Tape)
  | 0, t => some ([], t)
  | n + 1, t => do
    let first ← expression t
    let rest ← expressions n first.2
    some (first.1 :: rest.1, rest.2)

end Descent

end Script
