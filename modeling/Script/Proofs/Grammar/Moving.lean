import Script.Grammar.Statement
import Script.Proofs.Syntax.Positions

/-!
# Readers do not look at positions

A reader takes the positions of tokens over into the tree and into its diagnostics, and decides
nothing by them. In front of the same tokens at other positions it reads the same tree at those
positions.

- `Cursor.moved`: the same tokens at other positions.
- `Parser.Carries`: what a reader makes of moved tokens; one rule for every way of putting readers
  together, and one for each reader of one token.
- `Grammar.Expressions.carried`, `Grammar.Statements.carried`: all readers of the grammar.
- `parse_moved`: the program that moved tokens are.
- `mem_of_parse_eq_ok`, `mem_of_parse_eq_error`: trees and diagnostics have no other positions than
  those of tokens.
-/

namespace Script

/-- The token at another position. -/
def Token.moved (μ : Position → Position) (t : Token) : Token := { t with pos := μ t.pos }

/-- The cursor in front of the same tokens at other positions. -/
def Cursor.moved (μ : Position → Position) (c : Cursor) : Cursor :=
  ⟨c.ahead.map (Token.moved μ), μ c.stop⟩

/-- What a reader has ended with, at other positions; `f` moves its result. -/
def Parser.resultMoved {α : Type} (μ : Position → Position) (f : α → α) :
    EStateM.Result Diagnostic Cursor α → EStateM.Result Diagnostic Cursor α
  | .ok a c => .ok (f a) (c.moved μ)
  | .error d c => .error (d.moved μ) (c.moved μ)

namespace Parser

/-- In front of moved tokens, the reader `q` does what `p` does in front of the tokens as they
were, at the moved positions. -/
def Carries {α : Type} (μ : Position → Position) (f : α → α) (p q : Parser α) : Prop :=
  ∀ c : Cursor, q (c.moved μ) = resultMoved μ f (p c)

variable {α β : Type} {μ : Position → Position} {f : α → α} {g : β → β} {p q : Parser α}
  {kind : TokenKind} {fault : Fault}

/-! ## Readers put together -/

theorem Carries.pure (a : α) : Carries μ f (Pure.pure a) (Pure.pure (f a)) := fun _ => rfl

theorem Carries.bind {h h' : α → Parser β} (hp : Carries μ f p q)
    (hh : ∀ a, Carries μ g (h a) (h' (f a))) : Carries μ g (p >>= h) (q >>= h') := by
  intro c
  show EStateM.bind q h' (c.moved μ) = resultMoved μ g (EStateM.bind p h c)
  unfold EStateM.bind
  rw [hp c]
  cases p c with
  | ok a c' => exact hh a c'
  | error d c' => rfl

theorem Carries.map {h h' : α → β} (hp : Carries μ f p q) (hh : ∀ a, h' (f a) = g (h a)) :
    Carries μ g (h <$> p) (h' <$> q) := by
  intro c
  show EStateM.map h' q (c.moved μ) = resultMoved μ g (EStateM.map h p c)
  unfold EStateM.map
  rw [hp c]
  cases p c with
  | ok a c' => exact congrArg (EStateM.Result.ok · (c'.moved μ)) (hh a)
  | error d c' => rfl

/-- A choice by something that positions have no part in. -/
theorem Carries.ite {P : Prop} [Decidable P] {p' q' : Parser α} (hp : Carries μ f p q)
    (hp' : Carries μ f p' q') : Carries μ f (if P then p else p') (if P then q else q') := by
  split
  · exact hp
  · exact hp'

/-! ## Readers of one token -/

theorem Carries.next? : Carries μ (Option.map (Token.moved μ)) next? next? := by
  intro c
  obtain ⟨_ | ⟨t, rest⟩, stop⟩ := c <;> rfl

theorem Carries.nextKind? : Carries μ id nextKind? nextKind? := by
  intro c
  obtain ⟨_ | ⟨t, rest⟩, stop⟩ := c <;> rfl

theorem Carries.here : Carries μ μ here here := by
  intro c
  obtain ⟨_ | ⟨t, rest⟩, stop⟩ := c <;> rfl

theorem Carries.advance : Carries μ id advance advance := by
  intro c
  obtain ⟨_ | ⟨t, rest⟩, stop⟩ := c <;> rfl

theorem Carries.failAt {pos : Position} : Carries μ f (failAt pos fault) (failAt (μ pos) fault) :=
  fun _ => rfl

theorem Carries.fail : Carries μ f (fail fault) (fail fault) := by
  intro c
  obtain ⟨_ | ⟨t, rest⟩, stop⟩ := c <;> rfl

theorem Carries.unexpected : Carries μ f unexpected unexpected := by
  intro c
  obtain ⟨_ | ⟨t, rest⟩, stop⟩ := c <;> rfl

theorem Carries.nextIs : Carries μ id (nextIs kind) (nextIs kind) := by
  intro c
  obtain ⟨_ | ⟨t, rest⟩, stop⟩ := c <;> rfl

theorem Carries.accept? : Carries μ (Option.map μ) (accept? kind) (accept? kind) := by
  intro c
  obtain ⟨_ | ⟨t, rest⟩, stop⟩ := c
  · rfl
  · by_cases hkind : t.kind = kind <;>
      simp [Parser.accept?, Cursor.moved, Token.moved, resultMoved, hkind]

theorem Carries.expect {sign : Punct} {what : Expectation} :
    Carries μ μ (expect sign what) (expect sign what) := by
  intro c
  obtain ⟨_ | ⟨t, rest⟩, stop⟩ := c
  · rfl
  · by_cases hkind : t.kind = .punct sign <;>
      simp [Parser.expect, Cursor.moved, Token.moved, resultMoved, Diagnostic.moved, hkind]

theorem Carries.expectIdent {what : Expectation} :
    Carries μ id (expectIdent what) (expectIdent what) := by
  intro c
  obtain ⟨_ | ⟨⟨kind, lexeme, pos⟩, rest⟩, stop⟩ := c
  · rfl
  · cases kind <;> rfl

end Parser

/-! ## Expressions -/

namespace Grammar

open Script.Parser

variable {μ : Position → Position} {n : Nat}

theorem leaf?_moved (kind : TokenKind) (pos : Position) :
    kind.leaf? (μ pos) = (kind.leaf? pos).map (Expr.moved μ) := by
  cases kind with
  | keyword word => cases word <;> rfl
  | _ => rfl

theorem join_moved (op : Operator) (left right : Expr) (pos : Position) :
    op.join (left.moved μ) (right.moved μ) (μ pos) = (op.join left right pos).moved μ := by
  cases op <;> rfl

/-- What the readers of expressions make of moved tokens. -/
structure Expressions (μ : Position → Position) (n : Nat) : Prop where
  expression : Carries μ (Expr.moved μ) (expression n) (expression n)
  operation (level : Nat) : Carries μ (Expr.moved μ) (operation n level) (operation n level)
  operators (level : Nat) (left : Expr) :
    Carries μ (Expr.moved μ) (operators n level left) (operators n level (left.moved μ))
  unary : Carries μ (Expr.moved μ) (unary n) (unary n)
  calls (callee : Expr) : Carries μ (Expr.moved μ) (calls n callee) (calls n (callee.moved μ))
  arguments (done : List Expr) :
    Carries μ (List.map (Expr.moved μ)) (arguments n done)
      (arguments n (done.map (Expr.moved μ)))
  closed : Carries μ (Expr.moved μ) (closed n) (closed n)

theorem Expressions.expression_succ (h : Expressions μ n) :
    Carries μ (Expr.moved μ) (Grammar.expression (n + 1)) (Grammar.expression (n + 1)) := by
  rw [Grammar.expression]
  refine (h.operation 1).bind fun target => Carries.accept?.bind fun found => ?_
  cases found with
  | none => exact .pure target
  | some pos =>
    refine h.expression.bind fun value => ?_
    cases target with
    | ident name start => exact .pure (Expr.assign name value start)
    | _ => exact .failAt

theorem Expressions.operators_succ (h : Expressions μ n) (level : Nat) (left : Expr) :
    Carries μ (Expr.moved μ) (Grammar.operators (n + 1) level left)
      (Grammar.operators (n + 1) level (left.moved μ)) := by
  rw [Grammar.operators, Grammar.operators]
  refine Carries.next?.bind fun next => ?_
  cases next with
  | none => exact .pure left
  | some t =>
    dsimp only [Option.map_some, Token.moved]
    cases t.kind.operator? with
    | none => exact .pure left
    | some op =>
      refine Carries.ite (.pure left) (Carries.advance.bind fun _ => ?_)
      refine (h.operation (op.level + 1)).bind fun right => ?_
      have hjoin := h.operators level (op.join left right t.pos)
      rw [← join_moved] at hjoin
      exact hjoin

theorem Expressions.unary_succ (h : Expressions μ n) :
    Carries μ (Expr.moved μ) (Grammar.unary (n + 1)) (Grammar.unary (n + 1)) := by
  rw [Grammar.unary]
  refine Carries.next?.bind fun next => ?_
  cases next with
  | none => exact .unexpected
  | some t =>
    dsimp only [Option.map_some, Token.moved]
    cases t.kind.unaryOp? with
    | some op =>
      exact Carries.advance.bind fun _ => h.unary.bind fun operand =>
        .pure (Expr.unary op operand t.pos)
    | none => exact h.closed.bind fun callee => h.calls callee

theorem Expressions.calls_succ (h : Expressions μ n) (callee : Expr) :
    Carries μ (Expr.moved μ) (Grammar.calls (n + 1) callee)
      (Grammar.calls (n + 1) (callee.moved μ)) := by
  have hcall : ∀ args, Carries μ (Expr.moved μ)
      (do
        let pos ← expect .rightParen .argumentsEnd
        Grammar.calls n (.call callee args pos))
      (do
        let pos ← expect .rightParen .argumentsEnd
        Grammar.calls n (.call (callee.moved μ) (args.map (Expr.moved μ)) pos)) := by
    intro args
    refine Carries.expect.bind fun pos => ?_
    have hmore := h.calls (.call callee args pos)
    rw [Expr.moved, Expr.movedEach_eq_map] at hmore
    exact hmore
  rw [Grammar.calls, Grammar.calls]
  refine Carries.accept?.bind fun found => ?_
  cases found with
  | none => exact .pure callee
  | some pos =>
    refine Carries.nextIs.bind fun empty => Carries.ite ?_ ?_
    · exact (Carries.pure (f := List.map (Expr.moved μ)) []).bind hcall
    · exact (h.arguments []).bind hcall

theorem Expressions.arguments_succ (h : Expressions μ n) (done : List Expr) :
    Carries μ (List.map (Expr.moved μ)) (Grammar.arguments (n + 1) done)
      (Grammar.arguments (n + 1) (done.map (Expr.moved μ))) := by
  rw [Grammar.arguments, Grammar.arguments, List.length_map]
  refine Carries.ite .fail (h.expression.bind fun arg => Carries.accept?.bind fun found => ?_)
  cases found with
  | none =>
    have hdone := Carries.pure (μ := μ) (f := List.map (Expr.moved μ)) (arg :: done).reverse
    rw [List.map_reverse] at hdone
    exact hdone
  | some pos => exact h.arguments (arg :: done)

theorem Expressions.closed_succ (h : Expressions μ n) :
    Carries μ (Expr.moved μ) (Grammar.closed (n + 1)) (Grammar.closed (n + 1)) := by
  rw [Grammar.closed]
  refine Carries.next?.bind fun next => ?_
  cases next with
  | none => exact .unexpected
  | some t =>
    dsimp only [Option.map_some, Token.moved]
    rw [leaf?_moved]
    cases t.kind.leaf? t.pos with
    | some e => exact Carries.advance.bind fun _ => .pure e
    | none =>
      refine Carries.ite ?_ .unexpected
      exact Carries.advance.bind fun _ => h.expression.bind fun inner =>
        Carries.expect.bind fun _ => .pure (Expr.group inner t.pos)

/-- **All readers of expressions carry positions along.** -/
theorem Expressions.carried (μ : Position → Position) (n : Nat) : Expressions μ n := by
  induction n with
  | zero =>
    exact ⟨.unexpected, fun _ => .unexpected, fun _ _ => .unexpected, .unexpected,
      fun _ => .unexpected, fun _ => .unexpected, .unexpected⟩
  | succ n ih =>
    exact
      { expression := ih.expression_succ
        operation := fun level => by
          rw [Grammar.operation]
          exact ih.unary.bind fun left => ih.operators level left
        operators := ih.operators_succ
        unary := ih.unary_succ
        calls := ih.calls_succ
        arguments := ih.arguments_succ
        closed := ih.closed_succ }

/-! ## Statements without statements inside -/

/-- An expression where there need not be one. -/
theorem some_expression_carried :
    Carries μ (Option.map (Expr.moved μ)) (some <$> expression n) (some <$> expression n) :=
  (Expressions.carried μ n).expression.map fun _ => rfl

theorem declaration_carried :
    Carries μ (Stmt.moved μ) (declaration n) (declaration n) := by
  have hrest : ∀ (pos : Position) (name : String) (initial : Option Expr),
      Carries μ (Stmt.moved μ)
        (do
          let _ ← expect .semicolon .declarationEnd
          pure (.declare name initial pos))
        (do
          let _ ← expect .semicolon .declarationEnd
          pure (.declare name (initial.map (Expr.moved μ)) (μ pos))) :=
    fun pos name initial => Carries.expect.bind fun _ => .pure (Stmt.declare name initial pos)
  unfold declaration
  refine Carries.here.bind fun pos => Carries.advance.bind fun _ =>
    Carries.expectIdent.bind fun name => Carries.accept?.bind fun found => ?_
  cases found with
  | none => exact (Carries.pure (f := Option.map (Expr.moved μ)) none).bind (hrest pos name)
  | some eq => exact some_expression_carried.bind (hrest pos name)

theorem expressionStatement_carried :
    Carries μ (Stmt.moved μ) (expressionStatement n) (expressionStatement n) :=
  (Expressions.carried μ n).expression.bind fun e => Carries.expect.bind fun _ =>
    .pure (Stmt.expression e)

theorem printStatement_carried :
    Carries μ (Stmt.moved μ) (printStatement n) (printStatement n) :=
  Carries.here.bind fun pos => Carries.advance.bind fun _ =>
    (Expressions.carried μ n).expression.bind fun e => Carries.expect.bind fun _ =>
      .pure (Stmt.print e pos)

theorem returnStatement_carried :
    Carries μ (Stmt.moved μ) (returnStatement n) (returnStatement n) := by
  have hrest : ∀ (pos : Position) (value : Option Expr),
      Carries μ (Stmt.moved μ)
        (do
          let _ ← expect .semicolon .returnEnd
          pure (.giveBack value pos))
        (do
          let _ ← expect .semicolon .returnEnd
          pure (.giveBack (value.map (Expr.moved μ)) (μ pos))) :=
    fun pos value => Carries.expect.bind fun _ => .pure (Stmt.giveBack value pos)
  unfold returnStatement
  refine Carries.here.bind fun pos => Carries.advance.bind fun _ =>
    Carries.nextIs.bind fun bare => Carries.ite ?_ ?_
  · exact (Carries.pure (f := Option.map (Expr.moved μ)) none).bind (hrest pos)
  · exact some_expression_carried.bind (hrest pos)

theorem jumpStatement_carried {inLoop : Bool} {jump : Position → Stmt}
    (h : ∀ pos, jump (μ pos) = (jump pos).moved μ) :
    Carries μ (Stmt.moved μ) (jumpStatement inLoop jump) (jumpStatement inLoop jump) := by
  unfold jumpStatement
  refine Carries.next?.bind fun next => ?_
  cases next with
  | none => exact .unexpected
  | some t =>
    refine Carries.advance.bind fun _ => Carries.ite ?_ .failAt
    refine Carries.expect.bind fun _ => ?_
    have hjump := Carries.pure (μ := μ) (f := Stmt.moved μ) (jump t.pos)
    rw [← h] at hjump
    exact hjump

theorem parameters_carried (n : Nat) (done : List Param) :
    Carries μ (List.map (Param.moved μ)) (parameters n done)
      (parameters n (done.map (Param.moved μ))) := by
  induction n generalizing done with
  | zero => exact .unexpected
  | succ n ih =>
    have hnames : ∀ name, (done.map (Param.moved μ)).any (·.name = name) =
        done.any (·.name = name) := fun name => List.any_map
    rw [parameters, parameters, List.length_map]
    refine Carries.ite .fail (Carries.here.bind fun pos =>
      Carries.expectIdent.bind fun name => ?_)
    rw [id_eq, hnames]
    refine Carries.ite .failAt (Carries.accept?.bind fun found => ?_)
    cases found with
    | none =>
      have hdone := Carries.pure (μ := μ) (f := List.map (Param.moved μ))
        (⟨name, pos⟩ :: done).reverse
      rw [List.map_reverse] at hdone
      exact hdone
    | some comma => exact ih (⟨name, pos⟩ :: done)

theorem firstClause_carried :
    Carries μ (Option.map (Stmt.moved μ)) (firstClause n) (firstClause n) := by
  unfold firstClause
  refine Carries.nextKind?.bind fun next => ?_
  rw [id_eq]
  split
  · exact Carries.advance.bind fun _ => .pure none
  · exact declaration_carried.map fun _ => rfl
  · exact expressionStatement_carried.map fun _ => rfl

/-! ## Statements with statements inside -/

/-- What the readers of statements make of moved tokens. -/
structure Statements (μ : Position → Position) (n : Nat) : Prop where
  item (inLoop : Bool) : Carries μ (Stmt.moved μ) (item n inLoop) (item n inLoop)
  functionDeclaration : Carries μ (Stmt.moved μ) (functionDeclaration n) (functionDeclaration n)
  statement (inLoop : Bool) : Carries μ (Stmt.moved μ) (statement n inLoop) (statement n inLoop)
  block (inLoop : Bool) : Carries μ (List.map (Stmt.moved μ)) (block n inLoop) (block n inLoop)
  items (inLoop : Bool) (done : List Stmt) :
    Carries μ (List.map (Stmt.moved μ)) (items n inLoop done)
      (items n inLoop (done.map (Stmt.moved μ)))
  branchStatement (inLoop : Bool) :
    Carries μ (Stmt.moved μ) (branchStatement n inLoop) (branchStatement n inLoop)
  whileStatement : Carries μ (Stmt.moved μ) (whileStatement n) (whileStatement n)
  forStatement : Carries μ (Stmt.moved μ) (forStatement n) (forStatement n)

theorem Statements.item_succ (h : Statements μ n) (inLoop : Bool) :
    Carries μ (Stmt.moved μ) (Grammar.item (n + 1) inLoop) (Grammar.item (n + 1) inLoop) := by
  rw [Grammar.item]
  refine Carries.nextKind?.bind fun next => ?_
  rw [id_eq]
  split
  · exact declaration_carried
  · exact h.functionDeclaration
  · exact h.statement inLoop

theorem Statements.functionDeclaration_succ (h : Statements μ n) :
    Carries μ (Stmt.moved μ) (Grammar.functionDeclaration (n + 1))
      (Grammar.functionDeclaration (n + 1)) := by
  have hrest : ∀ (pos : Position) (name : String) (params : List Param),
      Carries μ (Stmt.moved μ)
        (do
          let _ ← expect .rightParen .parametersEnd
          let body ← Grammar.block n false
          pure (.function ⟨name, params, body, pos⟩))
        (do
          let _ ← expect .rightParen .parametersEnd
          let body ← Grammar.block n false
          pure (.function ⟨name, params.map (Param.moved μ), body, μ pos⟩)) := by
    intro pos name params
    refine Carries.expect.bind fun _ => (h.block false).bind fun body => ?_
    have hdone := Carries.pure (μ := μ) (f := Stmt.moved μ) (.function ⟨name, params, body, pos⟩)
    rw [Stmt.moved, FunDecl.moved, Stmt.movedEach_eq_map] at hdone
    exact hdone
  rw [Grammar.functionDeclaration]
  refine Carries.here.bind fun pos => Carries.advance.bind fun _ =>
    Carries.expectIdent.bind fun name => Carries.expect.bind fun _ =>
      Carries.nextIs.bind fun empty => Carries.ite ?_ ?_
  · exact (Carries.pure (f := List.map (Param.moved μ)) []).bind (hrest pos name)
  · exact (parameters_carried n []).bind (hrest pos name)

theorem Statements.statement_succ (h : Statements μ n) (inLoop : Bool) :
    Carries μ (Stmt.moved μ) (Grammar.statement (n + 1) inLoop)
      (Grammar.statement (n + 1) inLoop) := by
  rw [Grammar.statement]
  refine Carries.nextKind?.bind fun next => ?_
  rw [id_eq]
  split
  · exact printStatement_carried
  · exact (h.block inLoop).map fun body => by rw [Stmt.moved, Stmt.movedEach_eq_map]
  · exact h.branchStatement inLoop
  · exact h.whileStatement
  · exact h.forStatement
  · exact jumpStatement_carried fun _ => rfl
  · exact jumpStatement_carried fun _ => rfl
  · exact returnStatement_carried
  · exact expressionStatement_carried

theorem Statements.items_succ (h : Statements μ n) (inLoop : Bool) (done : List Stmt) :
    Carries μ (List.map (Stmt.moved μ)) (Grammar.items (n + 1) inLoop done)
      (Grammar.items (n + 1) inLoop (done.map (Stmt.moved μ))) := by
  rw [Grammar.items, Grammar.items]
  refine Carries.nextKind?.bind fun next => ?_
  rw [id_eq]
  split
  · exact .fail
  · refine Carries.advance.bind fun _ => ?_
    rw [← List.map_reverse]
    exact .pure done.reverse
  · exact (h.item inLoop).bind fun st => h.items inLoop (st :: done)

theorem Statements.branchStatement_succ (h : Statements μ n) (inLoop : Bool) :
    Carries μ (Stmt.moved μ) (Grammar.branchStatement (n + 1) inLoop)
      (Grammar.branchStatement (n + 1) inLoop) := by
  rw [Grammar.branchStatement]
  refine Carries.here.bind fun pos => Carries.advance.bind fun _ => Carries.expect.bind fun _ =>
    (Expressions.carried μ n).expression.bind fun condition => Carries.expect.bind fun _ =>
      (h.statement inLoop).bind fun whenTrue => Carries.accept?.bind fun found => ?_
  cases found with
  | none => exact .pure (Stmt.branch condition whenTrue none pos)
  | some els =>
    exact (h.statement inLoop).bind fun whenFalse =>
      .pure (Stmt.branch condition whenTrue (some whenFalse) pos)

theorem Statements.whileStatement_succ (h : Statements μ n) :
    Carries μ (Stmt.moved μ) (Grammar.whileStatement (n + 1)) (Grammar.whileStatement (n + 1)) := by
  rw [Grammar.whileStatement]
  exact Carries.here.bind fun pos => Carries.advance.bind fun _ => Carries.expect.bind fun _ =>
    (Expressions.carried μ n).expression.bind fun condition => Carries.expect.bind fun _ =>
      (h.statement true).bind fun body => .pure (Stmt.loop condition body none pos)

theorem Statements.forStatement_succ (h : Statements μ n) :
    Carries μ (Stmt.moved μ) (Grammar.forStatement (n + 1)) (Grammar.forStatement (n + 1)) := by
  have hbody : ∀ (pos : Position) (first : Option Stmt) (condition : Expr)
      (increment : Option Expr), Carries μ (Stmt.moved μ)
        (do
          let _ ← expect .rightParen .forClausesEnd
          let body ← Grammar.statement n true
          pure (.block (first.toList ++ [.loop condition body increment pos])))
        (do
          let _ ← expect .rightParen .forClausesEnd
          let body ← Grammar.statement n true
          pure (.block ((first.map (Stmt.moved μ)).toList ++
            [.loop (condition.moved μ) body (increment.map (Expr.moved μ)) (μ pos)]))) := by
    intro pos first condition increment
    refine Carries.expect.bind fun _ => (h.statement true).bind fun body => ?_
    have hdone := Carries.pure (μ := μ) (f := Stmt.moved μ)
      (.block (first.toList ++ [.loop condition body increment pos]))
    rw [Stmt.moved, Stmt.movedEach_append, Stmt.movedEach_eq_map first.toList] at hdone
    cases first <;> exact hdone
  have hclauses : ∀ (pos : Position) (first : Option Stmt) (condition : Expr),
      Carries μ (Stmt.moved μ)
        (do
          let _ ← expect .semicolon .forConditionEnd
          let increment ← if ← nextIs (.punct .rightParen) then pure none
            else some <$> Grammar.expression n
          let _ ← expect .rightParen .forClausesEnd
          let body ← Grammar.statement n true
          pure (.block (first.toList ++ [.loop condition body increment pos])))
        (do
          let _ ← expect .semicolon .forConditionEnd
          let increment ← if ← nextIs (.punct .rightParen) then pure none
            else some <$> Grammar.expression n
          let _ ← expect .rightParen .forClausesEnd
          let body ← Grammar.statement n true
          pure (.block ((first.map (Stmt.moved μ)).toList ++
            [.loop (condition.moved μ) body increment (μ pos)]))) := by
    intro pos first condition
    refine Carries.expect.bind fun _ => Carries.nextIs.bind fun bare => Carries.ite ?_ ?_
    · exact (Carries.pure (f := Option.map (Expr.moved μ)) none).bind (hbody pos first condition)
    · exact some_expression_carried.bind (hbody pos first condition)
  rw [Grammar.forStatement]
  refine Carries.here.bind fun pos => Carries.advance.bind fun _ => Carries.expect.bind fun _ =>
    firstClause_carried.bind fun first => Carries.nextIs.bind fun bare => Carries.ite ?_ ?_
  -- a condition that is left out stands at the keyword
  · exact (Carries.pure (f := Expr.moved μ) (.literal (.bool true) pos)).bind (hclauses pos first)
  · exact (Expressions.carried μ n).expression.bind (hclauses pos first)

/-- **All readers of statements carry positions along.** -/
theorem Statements.carried (μ : Position → Position) (n : Nat) : Statements μ n := by
  induction n with
  | zero =>
    exact ⟨fun _ => .unexpected, .unexpected, fun _ => .unexpected, fun _ => .unexpected,
      fun _ _ => .unexpected, fun _ => .unexpected, .unexpected, .unexpected⟩
  | succ n ih =>
    exact
      { item := ih.item_succ
        functionDeclaration := ih.functionDeclaration_succ
        statement := ih.statement_succ
        block := fun inLoop => by
          rw [Grammar.block]
          exact Carries.expect.bind fun _ => ih.items inLoop []
        items := ih.items_succ
        branchStatement := ih.branchStatement_succ
        whileStatement := ih.whileStatement_succ
        forStatement := ih.forStatement_succ }

theorem program_carried (n : Nat) (done : List Stmt) :
    Carries μ (List.map (Stmt.moved μ)) (program n done) (program n (done.map (Stmt.moved μ))) := by
  induction n generalizing done with
  | zero => exact .unexpected
  | succ n ih =>
    rw [program, program]
    refine Carries.next?.bind fun next => ?_
    cases next with
    | none =>
      have hdone := Carries.pure (μ := μ) (f := List.map (Stmt.moved μ)) done.reverse
      rw [List.map_reverse] at hdone
      exact hdone
    | some t => exact ((Statements.carried μ n).item false).bind fun st => ih (st :: done)

end Grammar

/-! ## Programs -/

variable {μ : Position → Position}

/-- A stream that ends with an end of input is moved with it. -/
theorem Cursor.ofTokens_moved {tokens : List Token} (h : ∃ t ∈ tokens, t.kind = .eof) :
    Cursor.ofTokens (tokens.map (Token.moved μ)) = (Cursor.ofTokens tokens).moved μ := by
  have hkind : ((fun t : Token => t.kind.isEof) ∘ Token.moved μ) = fun t => t.kind.isEof := rfl
  have hahead : ((fun t : Token => !t.kind.isEof) ∘ Token.moved μ) = fun t => !t.kind.isEof := rfl
  obtain ⟨last, hlast, heof⟩ := h
  have hfound : ∃ t ∈ tokens, t.kind.isEof = true := ⟨last, hlast, by rw [heof]; rfl⟩
  obtain ⟨t, ht⟩ := Option.isSome_iff_exists.1 (List.find?_isSome.2 hfound)
  unfold ofTokens moved
  simp only [List.takeWhile_map, List.find?_map, hkind, hahead, ht, Option.map_some]
  rfl

/-- **A program does not depend on where its tokens stand**, and the nodes of its tree, or the fault
in it, are moved with them. -/
theorem parse_moved {tokens : List Token} (h : ∃ t ∈ tokens, t.kind = .eof) :
    parse (tokens.map (Token.moved μ)) =
      ((parse tokens).map (Program.moved μ)).mapError (Diagnostic.moved μ) := by
  have hprogram := Grammar.program_carried (μ := μ) (Cursor.ofTokens tokens).budget []
    (Cursor.ofTokens tokens)
  have hbudget : ((Cursor.ofTokens tokens).moved μ).budget = (Cursor.ofTokens tokens).budget := by
    unfold Cursor.budget Cursor.moved
    rw [List.length_map]
  unfold parse Program.parser
  rw [Cursor.ofTokens_moved h, hbudget]
  rw [List.map_nil] at hprogram
  rw [hprogram]
  cases Grammar.program (Cursor.ofTokens tokens).budget [] (Cursor.ofTokens tokens) with
  | ok found c =>
    show Except.ok _ = Except.ok (Stmt.movedEach μ found)
    rw [Stmt.movedEach_eq_map]
  | error d c => rfl

/-- Where no token is moved, the stream is the same. -/
theorem Token.map_moved_eq_self {tokens : List Token} (h : ∀ p, p ∈ tokens.map (·.pos) → μ p = p) :
    tokens.map (Token.moved μ) = tokens := by
  refine (List.map_congr_left fun t ht => ?_).trans (List.map_id tokens)
  show Token.mk t.kind t.lexeme (μ t.pos) = t
  rw [h t.pos (List.mem_map_of_mem ht)]

/-- Every position in a tree is that of a token. -/
theorem mem_of_parse_eq_ok {tokens : List Token} (heof : ∃ t ∈ tokens, t.kind = .eof)
    {program : Program} (h : parse tokens = .ok program) :
    ∀ p ∈ program.positions, p ∈ tokens.map (·.pos) := by
  intro p hp
  refine Position.mem_of_fixed fun μ hμ => ?_
  have hmoved := parse_moved (μ := μ) heof
  rw [Token.map_moved_eq_self hμ, h] at hmoved
  exact fixed_of_moved_eq_self (Except.ok.inj hmoved).symm p hp

/-- A fault in a stream of tokens is at one of them. -/
theorem mem_of_parse_eq_error {tokens : List Token} (heof : ∃ t ∈ tokens, t.kind = .eof)
    {d : Diagnostic} (h : parse tokens = .error d) : d.pos ∈ tokens.map (·.pos) := by
  refine Position.mem_of_fixed fun μ hμ => ?_
  have hmoved := parse_moved (μ := μ) heof
  rw [Token.map_moved_eq_self hμ, h] at hmoved
  exact congrArg Diagnostic.pos (Except.error.inj hmoved).symm

end Script
