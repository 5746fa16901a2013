import Script.Grammar.Statement
import Script.Proofs.Grammar.Deciding

/-!
# The readers of the grammar look one token ahead

How a reader of the grammar ends is settled by the tokens it has read and the one behind them. Two
runs of a reader, in front of streams that begin alike, can have different budgets, so each is given
what the longer stream needs: as much as `Cursor.budget` allows for every token ahead, and a rank
for the readers that call each other in front of the same token.

- `Grammar.ExpressionsSettled.settled`, `Grammar.StatementsSettled.settled`: all readers of the
  grammar.
- `Grammar.program_settled`: the reader of programs.
-/

namespace Script

namespace Grammar

open Script.Parser

variable {n m room : Nat} {c : Cursor}

/-! ## Expressions -/

/-- How the readers of expressions end is settled, if both budgets allow for the tokens ahead. -/
structure ExpressionsSettled (n m : Nat) : Prop where
  expression {room : Nat} {c : Cursor} (hn : 16 * room + 4 ≤ n) (hm : 16 * room + 4 ≤ m) :
    Settles 1 room (expression n) (expression m) c
  operation (level : Nat) {room : Nat} {c : Cursor} (hn : 16 * room + 3 ≤ n)
    (hm : 16 * room + 3 ≤ m) : Settles 1 room (operation n level) (operation m level) c
  operators (level : Nat) (left : Expr) {room : Nat} {c : Cursor} (hn : 16 * room + 1 ≤ n)
    (hm : 16 * room + 1 ≤ m) : Settles 0 room (operators n level left) (operators m level left) c
  unary {room : Nat} {c : Cursor} (hn : 16 * room + 2 ≤ n) (hm : 16 * room + 2 ≤ m) :
    Settles 1 room (unary n) (unary m) c
  calls (callee : Expr) {room : Nat} {c : Cursor} (hn : 16 * room + 1 ≤ n)
    (hm : 16 * room + 1 ≤ m) : Settles 0 room (calls n callee) (calls m callee) c
  arguments (done : List Expr) {room : Nat} {c : Cursor} (hn : 16 * room + 5 ≤ n)
    (hm : 16 * room + 5 ≤ m) : Settles 1 room (arguments n done) (arguments m done) c
  closed {room : Nat} {c : Cursor} (hn : 16 * room + 1 ≤ n) (hm : 16 * room + 1 ≤ m) :
    Settles 1 room (closed n) (closed m) c

theorem ExpressionsSettled.expression_succ (h : ExpressionsSettled n m)
    (hn : 16 * room + 4 ≤ n + 1) (hm : 16 * room + 4 ≤ m + 1) :
    Settles 1 room (Grammar.expression (n + 1)) (Grammar.expression (m + 1)) c := by
  rw [Grammar.expression, Grammar.expression]
  refine (h.operation 1 (by omega) (by omega)).bind fun target c₁ room₁ _ hroom₁ => ?_
  have hvalue (c₂ : Cursor) (room₂ : Nat) (hroom₂ : room₂ < room₁) :
      Settles 1 room₂ (Grammar.expression n) (Grammar.expression m) c₂ :=
    h.expression (by omega) (by omega)
  cases target with
  | ident name start =>
    refine .accept?_bind (.pure _) fun pos c₂ room₂ hroom₂ => ?_
    exact ((hvalue c₂ room₂ hroom₂).bind fun value c₃ room₃ _ _ => .pure _).weaken
  | _ => exact .accept?_bind_late (fun _ => rfl) (fun _ => rfl) (.pure _) hvalue

theorem ExpressionsSettled.operators_succ (h : ExpressionsSettled n m) (level : Nat) (left : Expr)
    (hn : 16 * room + 1 ≤ n + 1) (hm : 16 * room + 1 ≤ m + 1) :
    Settles 0 room (Grammar.operators (n + 1) level left) (Grammar.operators (m + 1) level left)
      c := by
  rw [Grammar.operators, Grammar.operators]
  refine .next?_bind ?_
  cases ht : c.ahead.head? with
  | none => exact .pure left
  | some t =>
    dsimp only
    cases t.kind.operator? with
    | none => exact .pure left
    | some op =>
      refine .ite (.pure left) (Settles.advance_bind ht fun c₁ room₁ _ hroom₁ => ?_).weaken
      refine ((h.operation (op.level + 1) (by omega) (by omega)).bind
        fun right c₂ room₂ _ hroom₂ => ?_).weaken
      exact h.operators level (op.join left right t.pos) (by omega) (by omega)

theorem ExpressionsSettled.unary_succ (h : ExpressionsSettled n m)
    (hn : 16 * room + 2 ≤ n + 1) (hm : 16 * room + 2 ≤ m + 1) :
    Settles 1 room (Grammar.unary (n + 1)) (Grammar.unary (m + 1)) c := by
  rw [Grammar.unary, Grammar.unary]
  refine .next?_bind ?_
  cases ht : c.ahead.head? with
  | none => exact .unexpected
  | some t =>
    dsimp only
    cases t.kind.unaryOp? with
    | some op =>
      refine .advance_bind ht fun c₁ room₁ _ hroom₁ => ?_
      exact ((h.unary (by omega) (by omega)).bind fun operand c₂ room₂ _ _ => .pure _).weaken
    | none =>
      refine (h.closed (by omega) (by omega)).bind fun callee c₁ room₁ _ hroom₁ => ?_
      exact h.calls callee (by omega) (by omega)

theorem ExpressionsSettled.calls_succ (h : ExpressionsSettled n m) (callee : Expr)
    (hn : 16 * room + 1 ≤ n + 1) (hm : 16 * room + 1 ≤ m + 1) :
    Settles 0 room (Grammar.calls (n + 1) callee) (Grammar.calls (m + 1) callee) c := by
  -- what follows the arguments
  have hcall (room₁ : Nat) (hroom₁ : room₁ < room) (args : List Expr) (c₁ : Cursor) :
      Settles 1 room₁
        (do
          let pos ← expect .rightParen .argumentsEnd
          Grammar.calls n (.call callee args pos))
        (do
          let pos ← expect .rightParen .argumentsEnd
          Grammar.calls m (.call callee args pos)) c₁ :=
    .expect_bind fun pos c₂ room₂ hroom₂ => h.calls (.call callee args pos) (by omega) (by omega)
  rw [Grammar.calls, Grammar.calls]
  refine .accept?_bind (.pure callee) fun _ c₁ room₁ hroom₁ => .nextIs_bind fun empty => .ite ?_ ?_
  · exact (hcall room₁ hroom₁ [] c₁).weaken
  · exact ((h.arguments [] (by omega) (by omega)).bind fun args c₂ room₂ _ hroom₂ =>
      (hcall room₂ (by omega) args c₂).weaken).weaken

theorem ExpressionsSettled.arguments_succ (h : ExpressionsSettled n m) (done : List Expr)
    (hn : 16 * room + 5 ≤ n + 1) (hm : 16 * room + 5 ≤ m + 1) :
    Settles 1 room (Grammar.arguments (n + 1) done) (Grammar.arguments (m + 1) done) c := by
  rw [Grammar.arguments, Grammar.arguments]
  refine .ite .fail ((h.expression (by omega) (by omega)).bind fun arg c₁ room₁ _ hroom₁ => ?_)
  refine .accept?_bind (.pure _) fun _ c₂ room₂ hroom₂ => ?_
  exact (h.arguments (arg :: done) (by omega) (by omega)).weaken

theorem ExpressionsSettled.closed_succ (h : ExpressionsSettled n m) (hn : 16 * room + 1 ≤ n + 1)
    (hm : 16 * room + 1 ≤ m + 1) :
    Settles 1 room (Grammar.closed (n + 1)) (Grammar.closed (m + 1)) c := by
  rw [Grammar.closed, Grammar.closed]
  refine .next?_bind ?_
  cases ht : c.ahead.head? with
  | none => exact .unexpected
  | some t =>
    dsimp only
    cases t.kind.leaf? t.pos with
    | some e => exact .advance_bind ht fun c₁ room₁ _ _ => .pure e
    | none =>
      refine .ite (.advance_bind ht fun c₁ room₁ _ hroom₁ => ?_) .unexpected
      refine ((h.expression (by omega) (by omega)).bind fun inner c₂ room₂ _ _ => ?_).weaken
      exact (Settles.expect_bind fun _ c₃ room₃ _ => .pure _).weaken

/-- **How readers of expressions end is settled by what they read and the next token.** -/
theorem ExpressionsSettled.settled (n m : Nat) : ExpressionsSettled n m := by
  induction n generalizing m with
  | zero =>
    refine { expression := ?_, operation := ?_, operators := ?_, unary := ?_, calls := ?_,
             arguments := ?_, closed := ?_ }
    all_goals intros; omega
  | succ n ih =>
    cases m with
    | zero =>
      refine { expression := ?_, operation := ?_, operators := ?_, unary := ?_, calls := ?_,
               arguments := ?_, closed := ?_ }
      all_goals intros; omega
    | succ m =>
      have ih := ih m
      exact
        { expression := ih.expression_succ
          operation := fun level {room c} hn hm => by
            rw [Grammar.operation, Grammar.operation]
            refine (ih.unary (by omega) (by omega)).bind fun left c₁ room₁ _ hroom₁ => ?_
            exact ih.operators level left (by omega) (by omega)
          operators := fun level left => ih.operators_succ level left
          unary := ih.unary_succ
          calls := fun callee => ih.calls_succ callee
          arguments := fun done => ih.arguments_succ done
          closed := ih.closed_succ }

/-! ## Statements without statements inside -/

theorem expression_settled (hn : 16 * room + 4 ≤ n) (hm : 16 * room + 4 ≤ m) :
    Settles 1 room (expression n) (expression m) c :=
  (ExpressionsSettled.settled n m).expression hn hm

variable {kw : Token}

theorem declaration_settled (hkw : c.ahead.head? = some kw) (hn : 16 * room + 4 ≤ n)
    (hm : 16 * room + 4 ≤ m) : Settles 1 room (declaration n) (declaration m) c := by
  unfold declaration
  refine .keyword_bind hkw fun c₁ room₁ hroom₁ => ?_
  refine (Settles.expectIdent_bind fun name c₂ room₂ _ hroom₂ => ?_).weaken
  have hrest (initial : Option Expr) (c₃ : Cursor) (room₃ : Nat) : Settles 0 room₃
      (do
        let _ ← expect .semicolon .declarationEnd
        pure (.declare name initial kw.pos))
      (do
        let _ ← expect .semicolon .declarationEnd
        pure (.declare name initial kw.pos) : Parser Stmt) c₃ :=
    (Settles.expect_bind fun _ _ _ _ => .pure _).weaken
  refine .accept?_bind (hrest none c₂ room₂) fun _ c₃ room₃ hroom₃ => ?_
  refine ((expression_settled (by omega) (by omega)).map.bind fun initial c₄ room₄ _ _ => ?_).weaken
  exact hrest initial c₄ room₄

theorem expressionStatement_settled (hn : 16 * room + 4 ≤ n) (hm : 16 * room + 4 ≤ m) :
    Settles 1 room (expressionStatement n) (expressionStatement m) c :=
  (expression_settled hn hm).bind fun _ _ _ _ _ =>
    (Settles.expect_bind fun _ _ _ _ => .pure _).weaken

theorem printStatement_settled (hkw : c.ahead.head? = some kw) (hn : 16 * room + 4 ≤ n)
    (hm : 16 * room + 4 ≤ m) : Settles 1 room (printStatement n) (printStatement m) c := by
  unfold printStatement
  refine .keyword_bind hkw fun c₁ room₁ hroom₁ => ?_
  refine ((expression_settled (by omega) (by omega)).bind fun _ _ _ _ _ => ?_).weaken
  exact (Settles.expect_bind fun _ _ _ _ => .pure _).weaken

theorem returnStatement_settled (hkw : c.ahead.head? = some kw) (hn : 16 * room + 4 ≤ n)
    (hm : 16 * room + 4 ≤ m) : Settles 1 room (returnStatement n) (returnStatement m) c := by
  unfold returnStatement
  refine .keyword_bind hkw fun c₁ room₁ hroom₁ => .nextIs_bind fun bare => ?_
  have hrest (value : Option Expr) (c₂ : Cursor) (room₂ : Nat) : Settles 0 room₂
      (do
        let _ ← expect .semicolon .returnEnd
        pure (.giveBack value kw.pos))
      (do
        let _ ← expect .semicolon .returnEnd
        pure (.giveBack value kw.pos) : Parser Stmt) c₂ :=
    (Settles.expect_bind fun _ _ _ _ => .pure _).weaken
  refine .ite (hrest none c₁ room₁) ?_
  refine ((expression_settled (by omega) (by omega)).map.bind fun value c₂ room₂ _ _ => ?_).weaken
  exact hrest value c₂ room₂

/-- A jump outside a loop is refused at its keyword. -/
theorem jumpStatement_outside {jump : Position → Stmt} {e : Cursor}
    (hkw : e.ahead.head? = some kw) : jumpStatement false jump e =
      .error ⟨.outsideLoop kw.lexeme, e.pos⟩ { e with ahead := e.ahead.tail } := by
  obtain ⟨_ | ⟨t, rest⟩, stop⟩ := e
  · cases hkw
  · obtain rfl := Option.some.inj hkw
    rfl

theorem jumpStatement_settled {inLoop : Bool} {jump : Position → Stmt}
    (hkw : c.ahead.head? = some kw) :
    Settles 1 room (jumpStatement inLoop jump) (jumpStatement inLoop jump) c := by
  cases inLoop with
  | false =>
    refine .refuse (jumpStatement_outside hkw) rfl fun e he => ⟨⟨e.ahead.tail, e.stop⟩, ?_⟩
    rw [jumpStatement_outside (he.head.symm.trans hkw), he.pos]
  | true =>
    unfold jumpStatement
    refine .next?_bind ?_
    rw [hkw]
    refine .advance_bind hkw fun c₁ room₁ _ _ => ?_
    exact (Settles.expect_bind fun _ _ _ _ => .pure _).weaken

/-- A parameter of a name that is taken is refused at the name. -/
theorem parameters_taken {done : List Param} {name : String} {e : Cursor}
    (hroom : ¬ done.length ≥ maxArity) (hnext : e.NextIs (.ident name))
    (htaken : done.any (·.name = name) = true) : parameters (n + 1) done e =
      .error ⟨.duplicateParameter name, e.pos⟩ { e with ahead := e.ahead.tail } := by
  obtain ⟨_ | ⟨⟨kind, lexeme, pos⟩, rest⟩, stop⟩ := e
  · exact absurd hnext Cursor.not_nextIs_nil
  · obtain rfl := Cursor.nextIs_cons_iff.1 hnext
    have hname : expectIdent .parameterName ⟨⟨.ident name, lexeme, pos⟩ :: rest, stop⟩ =
        .ok name ⟨rest, stop⟩ := rfl
    rw [parameters, if_neg hroom, here_bind_eq, bind_of_ok hname, if_pos htaken]
    rfl

theorem parameters_settled (n m : Nat) (done : List Param) {room : Nat} {c : Cursor}
    (hn : 16 * room + 1 ≤ n) (hm : 16 * room + 1 ≤ m) :
    Settles 1 room (parameters n done) (parameters m done) c := by
  induction n generalizing m done room c with
  | zero => omega
  | succ n ih =>
    obtain ⟨m, rfl⟩ : ∃ k, m = k + 1 := ⟨m - 1, by omega⟩
    by_cases hfull : done.length ≥ maxArity
    · rw [parameters, parameters, if_pos hfull, if_pos hfull]
      exact .fail
    by_cases htaken : ∃ name, c.NextIs (.ident name) ∧ done.any (·.name = name) = true
    · obtain ⟨name, hnext, htaken⟩ := htaken
      refine .refuse (parameters_taken hfull hnext htaken) rfl
        fun e he => ⟨⟨e.ahead.tail, e.stop⟩, ?_⟩
      rw [parameters_taken hfull (he.nextIs_iff.1 hnext) htaken, he.pos]
    · rw [parameters, parameters, if_neg hfull, if_neg hfull]
      refine .here_bind (.expectIdent_bind fun name c₁ room₁ hnext hroom₁ => ?_)
      rw [if_neg fun h => htaken ⟨name, hnext, h⟩, if_neg fun h => htaken ⟨name, hnext, h⟩]
      refine .accept?_bind (.pure _) fun _ c₂ room₂ hroom₂ => ?_
      exact (ih m (⟨name, c.pos⟩ :: done) (by omega) (by omega)).weaken

theorem firstClause_settled (hn : 16 * room + 4 ≤ n) (hm : 16 * room + 4 ≤ m) :
    Settles 1 room (firstClause n) (firstClause m) c := by
  unfold firstClause
  refine .nextKind?_bind ?_
  split
  · rename_i hnext
    obtain ⟨t, ht, -⟩ := Option.map_eq_some_iff.1 hnext
    exact .advance_bind ht fun _ _ _ _ => .pure none
  · rename_i hnext
    obtain ⟨t, ht, -⟩ := Option.map_eq_some_iff.1 hnext
    exact (declaration_settled ht hn hm).map
  · exact (expressionStatement_settled hn hm).map

/-! ## Statements with statements inside -/

/-- A declared function from the parenthesis behind its parameters on. -/
def functionRest (n : Nat) (pos : Position) (name : String) (params : List Param) :
    Parser Stmt := do
  let _ ← expect .rightParen .parametersEnd
  let body ← block n false
  pure (.function ⟨name, params, body, pos⟩)

/-- A loop with clauses from the parenthesis behind them on. -/
def forBody (n : Nat) (pos : Position) (first : Option Stmt) (condition : Expr)
    (increment : Option Expr) : Parser Stmt := do
  let _ ← expect .rightParen .forClausesEnd
  let body ← statement n true
  pure (.block (first.toList ++ [.loop condition body increment pos]))

/-- A loop with clauses from the semicolon behind its condition on. -/
def forIncrement (n : Nat) (pos : Position) (first : Option Stmt) (condition : Expr) :
    Parser Stmt := do
  let _ ← expect .semicolon .forConditionEnd
  let increment ← if ← nextIs (.punct .rightParen) then pure none else some <$> expression n
  forBody n pos first condition increment

/-- How the readers of statements end is settled, if both budgets allow for the tokens ahead. -/
structure StatementsSettled (n m : Nat) : Prop where
  item (inLoop : Bool) {room : Nat} {c : Cursor} (hn : 16 * room + 6 ≤ n) (hm : 16 * room + 6 ≤ m) :
    Settles 1 room (item n inLoop) (item m inLoop) c
  functionDeclaration {kw : Token} {room : Nat} {c : Cursor} (hkw : c.ahead.head? = some kw)
    (hn : 16 * room + 1 ≤ n) (hm : 16 * room + 1 ≤ m) :
    Settles 1 room (functionDeclaration n) (functionDeclaration m) c
  statement (inLoop : Bool) {room : Nat} {c : Cursor} (hn : 16 * room + 5 ≤ n)
    (hm : 16 * room + 5 ≤ m) : Settles 1 room (statement n inLoop) (statement m inLoop) c
  block (inLoop : Bool) {room : Nat} {c : Cursor} (hn : 16 * room + 1 ≤ n)
    (hm : 16 * room + 1 ≤ m) : Settles 1 room (block n inLoop) (block m inLoop) c
  items (inLoop : Bool) (done : List Stmt) {room : Nat} {c : Cursor} (hn : 16 * room + 7 ≤ n)
    (hm : 16 * room + 7 ≤ m) : Settles 1 room (items n inLoop done) (items m inLoop done) c
  branchStatement (inLoop : Bool) {kw : Token} {room : Nat} {c : Cursor}
    (hkw : c.ahead.head? = some kw) (hn : 16 * room + 1 ≤ n) (hm : 16 * room + 1 ≤ m) :
    Settles 1 room (branchStatement n inLoop) (branchStatement m inLoop) c
  whileStatement {kw : Token} {room : Nat} {c : Cursor} (hkw : c.ahead.head? = some kw)
    (hn : 16 * room + 1 ≤ n) (hm : 16 * room + 1 ≤ m) :
    Settles 1 room (whileStatement n) (whileStatement m) c
  forStatement {kw : Token} {room : Nat} {c : Cursor} (hkw : c.ahead.head? = some kw)
    (hn : 16 * room + 1 ≤ n) (hm : 16 * room + 1 ≤ m) :
    Settles 1 room (forStatement n) (forStatement m) c

theorem StatementsSettled.item_succ (h : StatementsSettled n m) (inLoop : Bool)
    (hn : 16 * room + 6 ≤ n + 1) (hm : 16 * room + 6 ≤ m + 1) :
    Settles 1 room (Grammar.item (n + 1) inLoop) (Grammar.item (m + 1) inLoop) c := by
  rw [Grammar.item, Grammar.item]
  refine .nextKind?_bind ?_
  split
  · rename_i hnext
    obtain ⟨t, ht, -⟩ := Option.map_eq_some_iff.1 hnext
    exact declaration_settled ht (by omega) (by omega)
  · rename_i hnext
    obtain ⟨t, ht, -⟩ := Option.map_eq_some_iff.1 hnext
    exact h.functionDeclaration ht (by omega) (by omega)
  · exact h.statement inLoop (by omega) (by omega)

theorem StatementsSettled.functionRest (h : StatementsSettled n m) (pos : Position)
    (name : String) (params : List Param) (hn : 16 * room + 1 ≤ n) (hm : 16 * room + 1 ≤ m) :
    Settles 1 room (Grammar.functionRest n pos name params)
      (Grammar.functionRest m pos name params) c := by
  unfold Grammar.functionRest
  refine .expect_bind fun _ c₁ room₁ hroom₁ => ?_
  exact ((h.block false (by omega) (by omega)).bind fun _ _ _ _ _ => .pure _).weaken

theorem StatementsSettled.functionDeclaration_succ (h : StatementsSettled n m)
    (hkw : c.ahead.head? = some kw) (hn : 16 * room + 1 ≤ n + 1) (hm : 16 * room + 1 ≤ m + 1) :
    Settles 1 room (Grammar.functionDeclaration (n + 1)) (Grammar.functionDeclaration (m + 1))
      c := by
  rw [Grammar.functionDeclaration, Grammar.functionDeclaration]
  refine .keyword_bind hkw fun c₁ room₁ hroom₁ => ?_
  refine (Settles.expectIdent_bind fun name c₂ room₂ _ hroom₂ => ?_).weaken
  refine (Settles.expect_bind fun _ c₃ room₃ hroom₃ => .nextIs_bind fun empty => ?_).weaken
  refine .ite (h.functionRest kw.pos name [] (by omega) (by omega)).weaken ?_
  exact ((parameters_settled n m [] (by omega) (by omega)).bind fun params c₄ room₄ _ hroom₄ =>
    (h.functionRest kw.pos name params (by omega) (by omega)).weaken).weaken

theorem StatementsSettled.statement_succ (h : StatementsSettled n m) (inLoop : Bool)
    (hn : 16 * room + 5 ≤ n + 1) (hm : 16 * room + 5 ≤ m + 1) :
    Settles 1 room (Grammar.statement (n + 1) inLoop) (Grammar.statement (m + 1) inLoop) c := by
  have hother : Settles 1 room (expressionStatement n) (expressionStatement m) c :=
    expressionStatement_settled (by omega) (by omega)
  rw [Grammar.statement, Grammar.statement]
  refine .nextKind?_bind ?_
  cases hkw : c.ahead.head? with
  | none => exact hother
  | some kw =>
    rw [Option.map_some]
    split
    · exact printStatement_settled hkw (by omega) (by omega)
    · exact (h.block inLoop (by omega) (by omega)).map
    · exact h.branchStatement inLoop hkw (by omega) (by omega)
    · exact h.whileStatement hkw (by omega) (by omega)
    · exact h.forStatement hkw (by omega) (by omega)
    · exact jumpStatement_settled hkw
    · exact jumpStatement_settled hkw
    · exact returnStatement_settled hkw (by omega) (by omega)
    · exact hother

theorem StatementsSettled.items_succ (h : StatementsSettled n m) (inLoop : Bool) (done : List Stmt)
    (hn : 16 * room + 7 ≤ n + 1) (hm : 16 * room + 7 ≤ m + 1) :
    Settles 1 room (Grammar.items (n + 1) inLoop done) (Grammar.items (m + 1) inLoop done) c := by
  rw [Grammar.items, Grammar.items]
  refine .nextKind?_bind ?_
  split
  · exact .fail
  · rename_i hnext
    obtain ⟨t, ht, -⟩ := Option.map_eq_some_iff.1 hnext
    exact .advance_bind ht fun _ _ _ _ => .pure _
  · refine (h.item inLoop (by omega) (by omega)).bind fun st c₁ room₁ _ hroom₁ => ?_
    exact (h.items inLoop (st :: done) (by omega) (by omega)).weaken

theorem StatementsSettled.branchStatement_succ (h : StatementsSettled n m) (inLoop : Bool)
    (hkw : c.ahead.head? = some kw) (hn : 16 * room + 1 ≤ n + 1) (hm : 16 * room + 1 ≤ m + 1) :
    Settles 1 room (Grammar.branchStatement (n + 1) inLoop) (Grammar.branchStatement (m + 1) inLoop)
      c := by
  rw [Grammar.branchStatement, Grammar.branchStatement]
  refine .keyword_bind hkw fun c₁ room₁ hroom₁ => ?_
  refine (Settles.expect_bind fun _ c₂ room₂ hroom₂ => ?_).weaken
  refine ((expression_settled (by omega) (by omega)).bind fun condition c₃ room₃ _ _ => ?_).weaken
  refine (Settles.expect_bind fun _ c₄ room₄ hroom₄ => ?_).weaken
  refine ((h.statement inLoop (by omega) (by omega)).bind fun whenTrue c₅ room₅ _ _ => ?_).weaken
  refine .accept?_bind (.pure _) fun _ c₆ room₆ hroom₆ => ?_
  exact ((h.statement inLoop (by omega) (by omega)).bind fun _ _ _ _ _ => .pure _).weaken

theorem StatementsSettled.whileStatement_succ (h : StatementsSettled n m)
    (hkw : c.ahead.head? = some kw) (hn : 16 * room + 1 ≤ n + 1) (hm : 16 * room + 1 ≤ m + 1) :
    Settles 1 room (Grammar.whileStatement (n + 1)) (Grammar.whileStatement (m + 1)) c := by
  rw [Grammar.whileStatement, Grammar.whileStatement]
  refine .keyword_bind hkw fun c₁ room₁ hroom₁ => ?_
  refine (Settles.expect_bind fun _ c₂ room₂ hroom₂ => ?_).weaken
  refine ((expression_settled (by omega) (by omega)).bind fun condition c₃ room₃ _ _ => ?_).weaken
  refine (Settles.expect_bind fun _ c₄ room₄ hroom₄ => ?_).weaken
  exact ((h.statement true (by omega) (by omega)).bind fun _ _ _ _ _ => .pure _).weaken

theorem StatementsSettled.forBody (h : StatementsSettled n m) (pos : Position)
    (first : Option Stmt) (condition : Expr) (increment : Option Expr)
    (hn : 16 * room + 1 ≤ n) (hm : 16 * room + 1 ≤ m) :
    Settles 1 room (Grammar.forBody n pos first condition increment)
      (Grammar.forBody m pos first condition increment) c := by
  unfold Grammar.forBody
  refine .expect_bind fun _ c₁ room₁ hroom₁ => ?_
  exact ((h.statement true (by omega) (by omega)).bind fun _ _ _ _ _ => .pure _).weaken

theorem StatementsSettled.forIncrement (h : StatementsSettled n m) (pos : Position)
    (first : Option Stmt) (condition : Expr) (hn : 16 * room + 1 ≤ n) (hm : 16 * room + 1 ≤ m) :
    Settles 1 room (Grammar.forIncrement n pos first condition)
      (Grammar.forIncrement m pos first condition) c := by
  unfold Grammar.forIncrement
  refine .expect_bind fun _ c₁ room₁ hroom₁ => .nextIs_bind fun bare => ?_
  refine .ite (h.forBody pos first condition none (by omega) (by omega)).weaken ?_
  exact ((expression_settled (by omega) (by omega)).map.bind fun increment c₂ room₂ _ hroom₂ =>
    (h.forBody pos first condition increment (by omega) (by omega)).weaken).weaken

theorem StatementsSettled.forStatement_succ (h : StatementsSettled n m)
    (hkw : c.ahead.head? = some kw) (hn : 16 * room + 1 ≤ n + 1) (hm : 16 * room + 1 ≤ m + 1) :
    Settles 1 room (Grammar.forStatement (n + 1)) (Grammar.forStatement (m + 1)) c := by
  rw [Grammar.forStatement, Grammar.forStatement]
  refine .keyword_bind hkw fun c₁ room₁ hroom₁ => ?_
  refine (Settles.expect_bind fun _ c₂ room₂ hroom₂ => ?_).weaken
  refine ((firstClause_settled (by omega) (by omega)).bind fun first c₃ room₃ _ hroom₃ => ?_).weaken
  refine .nextIs_bind fun unconditional => ?_
  refine .ite (h.forIncrement kw.pos first _ (by omega) (by omega)).weaken ?_
  exact ((expression_settled (by omega) (by omega)).bind fun condition c₄ room₄ _ hroom₄ =>
    (h.forIncrement kw.pos first condition (by omega) (by omega)).weaken).weaken

/-- **How readers of statements end is settled by what they read and the next token.** -/
theorem StatementsSettled.settled (n m : Nat) : StatementsSettled n m := by
  induction n generalizing m with
  | zero =>
    refine { item := ?_, functionDeclaration := ?_, statement := ?_, block := ?_, items := ?_,
             branchStatement := ?_, whileStatement := ?_, forStatement := ?_ }
    all_goals intros; omega
  | succ n ih =>
    cases m with
    | zero =>
      refine { item := ?_, functionDeclaration := ?_, statement := ?_, block := ?_, items := ?_,
               branchStatement := ?_, whileStatement := ?_, forStatement := ?_ }
      all_goals intros; omega
    | succ m =>
      have ih := ih m
      exact
        { item := fun inLoop => ih.item_succ inLoop
          functionDeclaration := ih.functionDeclaration_succ
          statement := fun inLoop => ih.statement_succ inLoop
          block := fun inLoop {room c} hn hm => by
            rw [Grammar.block, Grammar.block]
            refine .expect_bind fun _ c₁ room₁ hroom₁ => ?_
            exact (ih.items inLoop [] (by omega) (by omega)).weaken
          items := fun inLoop done => ih.items_succ inLoop done
          branchStatement := fun inLoop => ih.branchStatement_succ inLoop
          whileStatement := ih.whileStatement_succ
          forStatement := ih.forStatement_succ }

theorem program_settled (n m : Nat) (done : List Stmt) {room : Nat} {c : Cursor}
    (hn : 16 * room + 7 ≤ n) (hm : 16 * room + 7 ≤ m) :
    Settles 0 room (program n done) (program m done) c := by
  induction n generalizing m done room c with
  | zero => omega
  | succ n ih =>
    obtain ⟨m, rfl⟩ : ∃ k, m = k + 1 := ⟨m - 1, by omega⟩
    rw [program, program]
    refine .next?_bind ?_
    cases c.ahead.head? with
    | none => exact .pure _
    | some t =>
      refine (((StatementsSettled.settled n m).item false (by omega) (by omega)).bind
        fun st c₁ room₁ _ hroom₁ => ?_).weaken
      exact ih m (st :: done) (by omega) (by omega)

end Grammar

end Script
