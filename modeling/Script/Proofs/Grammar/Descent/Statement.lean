import Script.Proofs.Grammar.Descent.Expression

/-!
# Statements and programs without a bound

The readers of statements come back in front of any tokens, and so does the reader of programs: a
block or a program goes on only behind a declaration or statement that has read something.

- `StatementsAgree.agree`: all readers of statements.
- `program_agrees`: the reader of programs.
-/

namespace Script

namespace Descent

variable {n : Nat} {inLoop : Bool} {t : Tape}

theorem expression_agrees (hn : 16 * t.left + 4 ≤ n) :
    Agrees 1 expression (Grammar.expression n) t :=
  (ExpressionsAgree.agree n).expression hn

/-! ## Statements without statements inside -/

theorem variableDeclaration_agrees (hmore : t.next.kind ≠ .eof) (hn : 16 * t.left + 4 ≤ n) :
    Agrees 1 variableDeclaration (Grammar.declaration n) t := by
  unfold variableDeclaration Grammar.declaration
  refine .keyword_bind hmore fun t₁ hless₁ => ?_
  refine (Agrees.expectIdent_bind fun name t₂ hless₂ => ?_).weaken
  refine .accept?_bind rfl .expect_pure fun _ t₃ hless₃ => ?_
  exact ((expression_agrees (by omega)).map.bind fun initial t₄ _ _ => .expect_pure).weaken

theorem expressionStatement_agrees (hn : 16 * t.left + 4 ≤ n) :
    Agrees 1 expressionStatement (Grammar.expressionStatement n) t :=
  (expression_agrees hn).bind fun _ _ _ _ => .expect_pure

theorem printStatement_agrees (hmore : t.next.kind ≠ .eof) (hn : 16 * t.left + 4 ≤ n) :
    Agrees 1 printStatement (Grammar.printStatement n) t := by
  unfold printStatement Grammar.printStatement
  refine .keyword_bind hmore fun t₁ hless₁ => ?_
  exact ((expression_agrees (by omega)).bind fun _ _ _ _ => .expect_pure).weaken

theorem returnStatement_agrees (hmore : t.next.kind ≠ .eof) (hn : 16 * t.left + 4 ≤ n) :
    Agrees 1 returnStatement (Grammar.returnStatement n) t := by
  unfold returnStatement Grammar.returnStatement
  refine .keyword_bind hmore fun t₁ hless₁ => .nextIs_bind rfl fun bare => ?_
  refine .ite .expect_pure ?_
  exact ((expression_agrees (by omega)).map.bind fun value t₂ _ _ => .expect_pure).weaken

theorem jumpStatement_agrees {jump : Position → Stmt} (hmore : t.next.kind ≠ .eof) :
    Agrees 1 (jumpStatement inLoop jump) (Grammar.jumpStatement inLoop jump) t := by
  unfold jumpStatement Grammar.jumpStatement
  refine .next?_bind (fun hend => absurd hend hmore) fun _ => ?_
  exact .advance_bind hmore fun t₁ _ => .ite .expect_pure .failAt

theorem parameters_agrees (n : Nat) (done : List Param) {t : Tape} (hn : 16 * t.left + 1 ≤ n) :
    Agrees 1 (StmtGoal.parameters done).read (Grammar.parameters n done) t := by
  induction n generalizing done t with
  | zero => omega
  | succ n ih =>
    rw [StmtGoal.read, Grammar.parameters]
    refine .ite .fail (.here_bind (.expectIdent_bind fun name t₁ hless₁ => .ite .failAt ?_))
    refine .accept?_bind rfl (.pure _) fun _ t₂ hless₂ => ?_
    exact (ih (⟨name, t.next.pos⟩ :: done) (by omega)).weaken

theorem firstClause_agrees (hn : 16 * t.left + 4 ≤ n) :
    Agrees 1 firstClause (Grammar.firstClause n) t := by
  unfold firstClause Grammar.firstClause
  have hother : Agrees 1 (some <$> expressionStatement)
      (some <$> Grammar.expressionStatement n) t :=
    (expressionStatement_agrees hn).map
  refine .nextKind?_bind (fun hend => ?_) fun hmore => ?_
  · rw [hend]
    exact hother
  · have hdeclaration : Agrees 1 (some <$> variableDeclaration)
        (some <$> Grammar.declaration n) t :=
      (variableDeclaration_agrees hmore hn).map
    cases hkind : t.next.kind with
    | keyword word =>
      cases word with
      | varKw => exact hdeclaration
      | _ => exact hother
    | punct sign =>
      cases sign with
      | semicolon => exact .advance_bind hmore fun _ _ => .pure none
      | _ => exact hother
    | _ => exact hother

/-! ## Statements with statements inside -/

/-- The readers of statements come back, as those with the budget `n` do, if it allows for the
tokens ahead. -/
structure StatementsAgree (n : Nat) : Prop where
  declaration (inLoop : Bool) {t : Tape} (hn : 16 * t.left + 6 ≤ n) :
    Agrees 1 (StmtGoal.declaration inLoop).read (Grammar.item n inLoop) t
  function {t : Tape} (hmore : t.next.kind ≠ .eof) (hn : 16 * t.left + 1 ≤ n) :
    Agrees 1 StmtGoal.function.read (Grammar.functionDeclaration n) t
  statement (inLoop : Bool) {t : Tape} (hn : 16 * t.left + 5 ≤ n) :
    Agrees 1 (StmtGoal.statement inLoop).read (Grammar.statement n inLoop) t
  block (inLoop : Bool) {t : Tape} (hn : 16 * t.left + 1 ≤ n) :
    Agrees 1 (StmtGoal.block inLoop).read (Grammar.block n inLoop) t
  items (inLoop : Bool) (done : List Stmt) {t : Tape} (hn : 16 * t.left + 7 ≤ n) :
    Agrees 1
      (do
        let body ← (StmtGoal.items inLoop done).read
        let _ ← expect .rightBrace .blockEnd
        pure body)
      (Grammar.items n inLoop done) t
  branch (inLoop : Bool) {t : Tape} (hmore : t.next.kind ≠ .eof) (hn : 16 * t.left + 1 ≤ n) :
    Agrees 1 (StmtGoal.branch inLoop).read (Grammar.branchStatement n inLoop) t
  whileLoop {t : Tape} (hmore : t.next.kind ≠ .eof) (hn : 16 * t.left + 1 ≤ n) :
    Agrees 1 StmtGoal.whileLoop.read (Grammar.whileStatement n) t
  forLoop {t : Tape} (hmore : t.next.kind ≠ .eof) (hn : 16 * t.left + 1 ≤ n) :
    Agrees 1 StmtGoal.forLoop.read (Grammar.forStatement n) t

theorem StatementsAgree.declaration_succ (h : StatementsAgree n) (inLoop : Bool)
    (hn : 16 * t.left + 6 ≤ n + 1) :
    Agrees 1 (StmtGoal.declaration inLoop).read (Grammar.item (n + 1) inLoop) t := by
  have hother : Agrees 1 (StmtGoal.statement inLoop).read (Grammar.statement n inLoop) t :=
    h.statement inLoop (by omega)
  rw [StmtGoal.read, Grammar.item]
  refine .nextKind?_bind (fun hend => ?_) fun hmore => ?_
  · rw [hend]
    exact hother
  · have hvariable : Agrees 1 variableDeclaration (Grammar.declaration n) t :=
      variableDeclaration_agrees hmore (by omega)
    have hfunction : Agrees 1 StmtGoal.function.read (Grammar.functionDeclaration n) t :=
      h.function hmore (by omega)
    cases t.next.kind with
    | keyword word =>
      cases word with
      | varKw => exact hvariable
      | funKw => exact hfunction
      | _ => exact hother
    | _ => exact hother

theorem StatementsAgree.function_succ (h : StatementsAgree n)
    (hmore : t.next.kind ≠ .eof) (hn : 16 * t.left + 1 ≤ n + 1) :
    Agrees 1 StmtGoal.function.read (Grammar.functionDeclaration (n + 1)) t := by
  rw [StmtGoal.read, Grammar.functionDeclaration]
  refine .keyword_bind hmore fun t₁ hless₁ => ?_
  refine (Agrees.expectIdent_bind fun name t₂ hless₂ => ?_).weaken
  refine (Agrees.expect_bind fun _ t₃ hless₃ => .nextIs_bind rfl fun empty => ?_).weaken
  -- what follows the parameters
  have hrest (params : List Param) (t₄ : Tape) (hless₄ : t₄.left ≤ t₃.left) : Agrees 0
      (do
        let _ ← expect .rightParen .parametersEnd
        let body ← (StmtGoal.block false).read
        pure (Stmt.function ⟨name, params, body, t.next.pos⟩))
      (do
        let _ ← Parser.expect .rightParen .parametersEnd
        let body ← Grammar.block n false
        pure (Stmt.function ⟨name, params, body, t.next.pos⟩)) t₄ :=
    (Agrees.expect_bind fun _ t₅ hless₅ =>
      ((h.block false (by omega)).bind fun _ _ _ _ => .pure _).weaken).weaken
  refine .ite (hrest [] t₃ (Nat.le_refl _)) ?_
  exact ((parameters_agrees n [] (by omega)).bind fun params t₄ hless₄ _ =>
    hrest params t₄ (by omega)).weaken

theorem StatementsAgree.statement_succ (h : StatementsAgree n) (inLoop : Bool)
    (hn : 16 * t.left + 5 ≤ n + 1) :
    Agrees 1 (StmtGoal.statement inLoop).read (Grammar.statement (n + 1) inLoop) t := by
  have hother : Agrees 1 expressionStatement (Grammar.expressionStatement n) t :=
    expressionStatement_agrees (by omega)
  rw [StmtGoal.read, Grammar.statement]
  refine .nextKind?_bind (fun hend => ?_) fun hmore => ?_
  · rw [hend]
    exact hother
  · have hblock : Agrees 1 ((StmtGoal.block inLoop).read >>= fun body => pure (Stmt.block body))
        (Stmt.block <$> Grammar.block n inLoop) t := by
      rw [map_eq_pure_bind]
      exact (h.block inLoop (by omega)).bind fun _ _ _ _ => .pure _
    have hprint := printStatement_agrees (n := n) hmore (by omega)
    have hbranch := h.branch inLoop hmore (by omega)
    have hwhile := h.whileLoop hmore (by omega)
    have hfor := h.forLoop hmore (by omega)
    have hreturn := returnStatement_agrees (n := n) hmore (by omega)
    have hjump (jump : Position → Stmt) :
        Agrees 1 (jumpStatement inLoop jump) (Grammar.jumpStatement inLoop jump) t :=
      jumpStatement_agrees hmore
    cases t.next.kind with
    | keyword word =>
      cases word with
      | printKw => exact hprint
      | ifKw => exact hbranch
      | whileKw => exact hwhile
      | forKw => exact hfor
      | breakKw => exact hjump .exitLoop
      | continueKw => exact hjump .nextIteration
      | returnKw => exact hreturn
      | _ => exact hother
    | punct sign =>
      cases sign with
      | leftBrace => exact hblock
      | _ => exact hother
    | _ => exact hother

/-- The statements of a block end in front of a closing brace or an end of input. -/
theorem items_of_closing {done : List Stmt}
    (h : t.next.kind = .punct .rightBrace ∨ t.next.kind = .eof) :
    (StmtGoal.items inLoop done).read t = some (.ok done.reverse, t) := by
  rw [StmtGoal.read, next_bind_eq, if_pos h]
  rfl

theorem items_of_not_closing {done : List Stmt}
    (h : ¬ (t.next.kind = .punct .rightBrace ∨ t.next.kind = .eof)) :
    (StmtGoal.items inLoop done).read t =
      ((StmtGoal.declaration inLoop).read >>= fun s =>
        (StmtGoal.items inLoop (s :: done)).read) t := by
  conv => lhs; rw [StmtGoal.read, next_bind_eq, if_neg h]

theorem grammar_items_of_closing {done : List Stmt}
    (h : t.next.kind = .punct .rightBrace ∨ t.next.kind = .eof) :
    Grammar.items (n + 1) inLoop done t.cursor =
      (Parser.expect .rightBrace .blockEnd >>= fun _ => pure done.reverse) t.cursor := by
  rw [Grammar.items]
  rcases h with hbrace | hend
  · have hnext : t.next = ⟨.punct .rightBrace, t.next.lexeme, t.next.pos⟩ := by rw [← hbrace]
    rw [(Tape.reads_advance (ne_eof hbrace rfl)).eq, hnext]
    rfl
  · rw [Tape.cursor_of_end hend]
    rfl

theorem grammar_items_of_not_closing {done : List Stmt}
    (h : ¬ (t.next.kind = .punct .rightBrace ∨ t.next.kind = .eof)) :
    Grammar.items (n + 1) inLoop done t.cursor =
      (Grammar.item n inLoop >>= fun s => Grammar.items n inLoop (s :: done)) t.cursor := by
  rw [not_or] at h
  rw [Grammar.items, Parser.nextKind?_bind_eq, head?_cursor, if_neg h.2, Option.map_some]
  cases hkind : t.next.kind with
  | punct sign =>
    cases sign with
    | rightBrace => exact absurd hkind h.1
    | _ => rfl
  | _ => rfl

theorem StatementsAgree.items_succ (h : StatementsAgree n) (inLoop : Bool) (done : List Stmt)
    (hn : 16 * t.left + 7 ≤ n + 1) :
    Agrees 1
      (do
        let body ← (StmtGoal.items inLoop done).read
        let _ ← expect .rightBrace .blockEnd
        pure body)
      (Grammar.items (n + 1) inLoop done) t := by
  by_cases hclosing : t.next.kind = .punct .rightBrace ∨ t.next.kind = .eof
  · refine Agrees.congr ?_ (bind_of_ok (items_of_closing hclosing))
      (grammar_items_of_closing hclosing)
    exact .expect_bind fun _ _ _ => .pure _
  · refine Agrees.congr ?_ (bind_congr_left (items_of_not_closing hclosing))
      (grammar_items_of_not_closing hclosing)
    rw [bind_assoc]
    refine (h.declaration inLoop (by omega)).bind fun s t₁ hless _ => ?_
    exact (h.items inLoop (s :: done) (by omega)).weaken

theorem StatementsAgree.branch_succ (h : StatementsAgree n) (inLoop : Bool)
    (hmore : t.next.kind ≠ .eof) (hn : 16 * t.left + 1 ≤ n + 1) :
    Agrees 1 (StmtGoal.branch inLoop).read (Grammar.branchStatement (n + 1) inLoop) t := by
  rw [StmtGoal.read, Grammar.branchStatement]
  refine .keyword_bind hmore fun t₁ hless₁ => ?_
  refine (Agrees.expect_bind fun _ t₂ hless₂ => ?_).weaken
  refine ((expression_agrees (by omega)).bind fun condition t₃ hless₃ _ => ?_).weaken
  refine (Agrees.expect_bind fun _ t₄ hless₄ => ?_).weaken
  refine ((h.statement inLoop (by omega)).bind fun whenTrue t₅ hless₅ _ => ?_).weaken
  refine .accept?_bind rfl (.pure _) fun _ t₆ hless₆ => ?_
  exact ((h.statement inLoop (by omega)).bind fun _ _ _ _ => .pure _).weaken

theorem StatementsAgree.whileLoop_succ (h : StatementsAgree n) (hmore : t.next.kind ≠ .eof)
    (hn : 16 * t.left + 1 ≤ n + 1) :
    Agrees 1 StmtGoal.whileLoop.read (Grammar.whileStatement (n + 1)) t := by
  rw [StmtGoal.read, Grammar.whileStatement]
  refine .keyword_bind hmore fun t₁ hless₁ => ?_
  refine (Agrees.expect_bind fun _ t₂ hless₂ => ?_).weaken
  refine ((expression_agrees (by omega)).bind fun condition t₃ hless₃ _ => ?_).weaken
  refine (Agrees.expect_bind fun _ t₄ hless₄ => ?_).weaken
  exact ((h.statement true (by omega)).bind fun _ _ _ _ => .pure _).weaken

theorem StatementsAgree.forLoop_succ (h : StatementsAgree n) (hmore : t.next.kind ≠ .eof)
    (hn : 16 * t.left + 1 ≤ n + 1) :
    Agrees 1 StmtGoal.forLoop.read (Grammar.forStatement (n + 1)) t := by
  rw [StmtGoal.read, Grammar.forStatement]
  refine .keyword_bind hmore fun t₁ hless₁ => ?_
  refine (Agrees.expect_bind fun _ t₂ hless₂ => ?_).weaken
  refine ((firstClause_agrees (by omega)).bind fun first t₃ hless₃ _ => ?_).weaken
  -- what follows the clauses, and what follows the condition
  have hbody (condition : Expr) (increment : Option Expr) (t₄ : Tape)
      (hless₄ : t₄.left ≤ t₃.left) : Agrees 0
      (do
        let _ ← expect .rightParen .forClausesEnd
        let body ← (StmtGoal.statement true).read
        pure (Stmt.block (first.toList ++ [.loop condition body increment t.next.pos])))
      (do
        let _ ← Parser.expect .rightParen .forClausesEnd
        let body ← Grammar.statement n true
        pure (Stmt.block (first.toList ++ [.loop condition body increment t.next.pos]))) t₄ :=
    (Agrees.expect_bind fun _ t₅ hless₅ =>
      ((h.statement true (by omega)).bind fun _ _ _ _ => .pure _).weaken).weaken
  have hincrement (condition : Expr) (t₄ : Tape) (hless₄ : t₄.left ≤ t₃.left) : Agrees 0
      (do
        let _ ← expect .semicolon .forConditionEnd
        let increment ← if ← nextIs (.punct .rightParen) then pure none else some <$> expression
        let _ ← expect .rightParen .forClausesEnd
        let body ← (StmtGoal.statement true).read
        pure (Stmt.block (first.toList ++ [.loop condition body increment t.next.pos])))
      (do
        let _ ← Parser.expect .semicolon .forConditionEnd
        let increment ← if ← Parser.nextIs (.punct .rightParen) then pure none
          else some <$> Grammar.expression n
        let _ ← Parser.expect .rightParen .forClausesEnd
        let body ← Grammar.statement n true
        pure (Stmt.block (first.toList ++ [.loop condition body increment t.next.pos]))) t₄ := by
    refine (Agrees.expect_bind fun _ t₅ hless₅ => .nextIs_bind rfl fun bare => ?_).weaken
    refine .ite (hbody condition none t₅ (by omega)) ?_
    exact ((expression_agrees (by omega)).map.bind fun increment t₆ hless₆ _ =>
      hbody condition increment t₆ (by omega)).weaken
  refine .nextIs_bind rfl fun unconditional => .ite (hincrement _ t₃ (Nat.le_refl _)) ?_
  exact ((expression_agrees (by omega)).bind fun condition t₄ hless₄ _ =>
    hincrement condition t₄ (by omega)).weaken

/-- **Without a bound statements are read as with one that the tokens ahead cannot exhaust.** -/
theorem StatementsAgree.agree (n : Nat) : StatementsAgree n := by
  induction n with
  | zero =>
    refine { declaration := ?_, function := ?_, statement := ?_, block := ?_, items := ?_,
             branch := ?_, whileLoop := ?_, forLoop := ?_ }
    all_goals intros; omega
  | succ n ih =>
    exact
      { declaration := fun inLoop => ih.declaration_succ inLoop
        function := ih.function_succ
        statement := fun inLoop => ih.statement_succ inLoop
        block := fun inLoop {t} hn => by
          rw [StmtGoal.read, Grammar.block]
          refine .expect_bind fun _ t₁ hless => ?_
          exact (ih.items inLoop [] (by omega)).weaken
        items := fun inLoop done => ih.items_succ inLoop done
        branch := fun inLoop => ih.branch_succ inLoop
        whileLoop := ih.whileLoop_succ
        forLoop := ih.forLoop_succ }

/-! ## Programs -/

theorem program_agrees (n : Nat) (done : List Stmt) {t : Tape} (hn : 16 * t.left + 7 ≤ n) :
    Agrees 0 (StmtGoal.program done).read (Grammar.program n done) t := by
  induction n generalizing done t with
  | zero => omega
  | succ n ih =>
    rw [StmtGoal.read, Grammar.program]
    refine .next?_bind (fun hend => ?_) fun hmore => ?_
    · rw [if_pos hend]
      exact .pure _
    · rw [if_neg hmore]
      refine (((StatementsAgree.agree n).declaration false (by omega)).bind
        fun s t₁ hless _ => ?_).weaken
      exact ih (s :: done) (by omega)

end Descent

end Script
