import Script.Grammar.Statement
import Script.Proofs.Grammar.Reading

/-!
# How readers of statements succeed

The readers of statements choose by the next token and then read part by part. As for expressions,
the ways in which each of them succeeds are listed once.

- `Grammar.declaration_eq_ok_iff`, `Grammar.branchStatement_succ_iff` and the like: what is read
  behind the keyword of a statement.
- `Grammar.item_succ_iff`, `Grammar.statement_succ_iff`, `Grammar.items_succ_iff`: which statement
  the next token chooses.
-/

namespace Script

namespace Grammar

open Script.Parser

variable {n : Nat} {inLoop : Bool} {c c₁ c' : Cursor} {kw : Token} {s : Stmt}

/-- Behind a keyword its position is known. -/
theorem here_advance_eq {α : Type} {f : Position → Parser α} (h : c.Reads [kw] c₁) :
    (here >>= fun pos => advance >>= fun _ => f pos) c = f kw.pos c₁ := by
  obtain ⟨ahead₁, stop₁⟩ := c₁
  rw [h.eq]
  rfl

/-! ## Statements without statements inside -/

theorem declaration_eq_ok_iff (hkw : c.Reads [kw] c₁) :
    declaration n c = .ok s c' ↔
      ∃ t c₂ name initial c₃ r, c₁.Reads [t] c₂ ∧ t.kind = .ident name ∧
        Announced (.punct .equal) (expression n) c₂ initial c₃ ∧ c₃.Reads [r] c' ∧
        r.kind = .punct .semicolon ∧ .declare name initial kw.pos = s := by
  rw [declaration, here_advance_eq hkw, expectIdent_bind_eq_ok_iff]
  constructor
  · rintro ⟨t, c₂, name, ht, hkind, h⟩
    obtain ⟨initial, c₃, hinitial, h⟩ := announced_bind_eq_ok_iff.1 h
    obtain ⟨r, hr, hsemicolon, rfl⟩ := expect_pure_eq_ok_iff.1 h
    exact ⟨t, c₂, name, initial, c₃, r, ht, hkind, hinitial, hr, hsemicolon, rfl⟩
  · rintro ⟨t, c₂, name, initial, c₃, r, ht, hkind, hinitial, hr, hsemicolon, rfl⟩
    refine ⟨t, c₂, name, ht, hkind, announced_bind_eq_ok_iff.2 ⟨initial, c₃, hinitial, ?_⟩⟩
    exact expect_pure_eq_ok_iff.2 ⟨r, hr, hsemicolon, rfl⟩

theorem expressionStatement_eq_ok_iff :
    expressionStatement n c = .ok s c' ↔
      ∃ e c₁ r, expression n c = .ok e c₁ ∧ c₁.Reads [r] c' ∧ r.kind = .punct .semicolon ∧
        .expression e = s := by
  rw [expressionStatement, bind_eq_ok_iff]
  refine exists_congr fun e => exists_congr fun c₁ => ?_
  rw [expect_pure_eq_ok_iff, exists_and_left]

theorem printStatement_eq_ok_iff (hkw : c.Reads [kw] c₁) :
    printStatement n c = .ok s c' ↔
      ∃ e c₂ r, expression n c₁ = .ok e c₂ ∧ c₂.Reads [r] c' ∧ r.kind = .punct .semicolon ∧
        .print e kw.pos = s := by
  rw [printStatement, here_advance_eq hkw, bind_eq_ok_iff]
  refine exists_congr fun e => exists_congr fun c₂ => ?_
  rw [expect_pure_eq_ok_iff, exists_and_left]

theorem returnStatement_eq_ok_iff (hkw : c.Reads [kw] c₁) :
    returnStatement n c = .ok s c' ↔
      ∃ value c₂ r, Omissible (.punct .semicolon) none (some <$> expression n) c₁ value c₂ ∧
        c₂.Reads [r] c' ∧ r.kind = .punct .semicolon ∧ .giveBack value kw.pos = s := by
  rw [returnStatement, here_advance_eq hkw, omissible_bind_eq_ok_iff]
  refine exists_congr fun value => exists_congr fun c₂ => ?_
  rw [expect_pure_eq_ok_iff, exists_and_left]

/-- A jump is read only inside a loop. -/
theorem jumpStatement_eq_ok_iff {jump : Position → Stmt} (hkw : c.Reads [kw] c₁) :
    jumpStatement inLoop jump c = .ok s c' ↔
      inLoop = true ∧ ∃ r, c₁.Reads [r] c' ∧ r.kind = .punct .semicolon ∧ jump kw.pos = s := by
  have hnext : jumpStatement inLoop jump c = (advance >>= fun _ =>
      if inLoop then do
        let _ ← expect .semicolon (.jumpEnd kw.lexeme)
        pure (jump kw.pos)
      else failAt kw.pos (.outsideLoop kw.lexeme)) c := by
    rw [hkw.eq]
    rfl
  rw [hnext, advance_bind_eq_ok_iff hkw.head?]
  constructor
  · rintro ⟨c₂, hkw', h⟩
    obtain rfl := hkw.unique hkw'
    rcases ite_eq_ok_iff.1 h with ⟨hloop, h⟩ | ⟨-, h⟩
    · exact ⟨hloop, expect_pure_eq_ok_iff.1 h⟩
    · exact (failAt_ne_ok h).elim
  · rintro ⟨hloop, h⟩
    exact ⟨c₁, hkw, ite_eq_ok_iff.2 (.inl ⟨hloop, expect_pure_eq_ok_iff.2 h⟩)⟩

/-! ## Parts of functions and loops -/

/-- There is room for one more parameter, its name is new, and it is the last or has a comma behind
it. -/
theorem parameters_succ_iff {done params : List Param} :
    parameters (n + 1) done c = .ok params c' ↔
      done.length < maxArity ∧ ∃ t c₁ name, c.Reads [t] c₁ ∧ t.kind = .ident name ∧
        name ∉ done.map (·.name) ∧
        ((¬ c₁.NextIs (.punct .comma) ∧ (⟨name, t.pos⟩ :: done).reverse = params ∧ c₁ = c') ∨
          ∃ comma c₂, c₁.Reads [comma] c₂ ∧ comma.kind = .punct .comma ∧
            parameters n (⟨name, t.pos⟩ :: done) c₂ = .ok params c') := by
  have hnew (name : String) : ¬ done.any (·.name = name) = true ↔ name ∉ done.map (·.name) := by
    simp
  rw [parameters, ite_fail_eq_ok_iff, Nat.not_le, here_bind_eq, expectIdent_bind_eq_ok_iff]
  refine and_congr_right fun _ => exists_congr fun t => exists_congr fun c₁ =>
    exists_congr fun name => and_congr_right fun ht => and_congr_right fun _ => ?_
  rw [ite_failAt_eq_ok_iff, hnew, accept?_bind_eq_ok_iff, ht.pos_eq]
  exact and_congr_right fun _ => or_congr (and_congr_right fun _ => pure_eq_ok_iff) Iff.rfl

theorem firstClause_eq_ok_iff {first : Option Stmt} :
    firstClause n c = .ok first c' ↔
      (∃ r, c.Reads [r] c' ∧ r.kind = .punct .semicolon ∧ none = first) ∨
      (∃ s, c.NextIs (.keyword .varKw) ∧ declaration n c = .ok s c' ∧ some s = first) ∨
      (∃ s, ¬ c.NextIs (.punct .semicolon) ∧ ¬ c.NextIs (.keyword .varKw) ∧
        expressionStatement n c = .ok s c' ∧ some s = first) := by
  rw [firstClause, nextKind?_bind_eq]
  obtain ⟨_ | ⟨⟨kind, lexeme, pos⟩, rest⟩, stop⟩ := c
  · simp [map_eq_ok_iff]
  · cases kind with
    | keyword word => cases word <;> simp [map_eq_ok_iff, and_assoc]
    | punct sign =>
      cases sign <;> simp [map_eq_ok_iff, advance_cons, and_assoc, and_comm]
    | _ => simp [map_eq_ok_iff, and_assoc]

/-! ## Which statement the next token chooses -/

/-- Whether a token of this kind is the first of a statement that does not begin with an
expression. -/
def leads : TokenKind → Bool
  | .keyword .printKw => true
  | .punct .leftBrace => true
  | .keyword .ifKw => true
  | .keyword .whileKw => true
  | .keyword .forKw => true
  | .keyword .breakKw => true
  | .keyword .continueKw => true
  | .keyword .returnKw => true
  | _ => false

theorem statement_succ_iff :
    statement (n + 1) inLoop c = .ok s c' ↔
      (c.NextIs (.keyword .printKw) ∧ printStatement n c = .ok s c') ∨
      (c.NextIs (.punct .leftBrace) ∧ ∃ body, block n inLoop c = .ok body c' ∧ .block body = s) ∨
      (c.NextIs (.keyword .ifKw) ∧ branchStatement n inLoop c = .ok s c') ∨
      (c.NextIs (.keyword .whileKw) ∧ whileStatement n c = .ok s c') ∨
      (c.NextIs (.keyword .forKw) ∧ forStatement n c = .ok s c') ∨
      (c.NextIs (.keyword .breakKw) ∧ jumpStatement inLoop .exitLoop c = .ok s c') ∨
      (c.NextIs (.keyword .continueKw) ∧ jumpStatement inLoop .nextIteration c = .ok s c') ∨
      (c.NextIs (.keyword .returnKw) ∧ returnStatement n c = .ok s c') ∨
      ((∀ t, c.ahead.head? = some t → leads t.kind = false) ∧
        expressionStatement n c = .ok s c') := by
  rw [statement, nextKind?_bind_eq]
  obtain ⟨_ | ⟨⟨kind, lexeme, pos⟩, rest⟩, stop⟩ := c
  · simp
  · cases kind with
    | keyword word => cases word <;> simp [leads]
    | punct sign => cases sign <;> simp [leads, map_eq_ok_iff]
    | _ => simp [leads]

theorem item_succ_iff :
    item (n + 1) inLoop c = .ok s c' ↔
      (c.NextIs (.keyword .varKw) ∧ declaration n c = .ok s c') ∨
      (c.NextIs (.keyword .funKw) ∧ functionDeclaration n c = .ok s c') ∨
      (¬ c.NextIs (.keyword .varKw) ∧ ¬ c.NextIs (.keyword .funKw) ∧
        statement n inLoop c = .ok s c') := by
  rw [item, nextKind?_bind_eq]
  obtain ⟨_ | ⟨⟨kind, lexeme, pos⟩, rest⟩, stop⟩ := c
  · simp
  · cases kind with
    | keyword word => cases word <;> simp
    | _ => simp

theorem block_succ_iff {body : List Stmt} :
    block (n + 1) inLoop c = .ok body c' ↔
      ∃ l c₁, c.Reads [l] c₁ ∧ l.kind = .punct .leftBrace ∧ items n inLoop [] c₁ = .ok body c' := by
  rw [block, expect_bind_eq_ok_iff]

theorem items_succ_iff {done body : List Stmt} :
    items (n + 1) inLoop done c = .ok body c' ↔
      (∃ r, c.Reads [r] c' ∧ r.kind = .punct .rightBrace ∧ done.reverse = body) ∨
      (¬ c.NextIs (.punct .rightBrace) ∧ c.ahead ≠ [] ∧ ∃ s c₁, item n inLoop c = .ok s c₁ ∧
        items n inLoop (s :: done) c₁ = .ok body c') := by
  rw [items, nextKind?_bind_eq]
  obtain ⟨_ | ⟨⟨kind, lexeme, pos⟩, rest⟩, stop⟩ := c
  · simp
  · cases kind with
    | punct sign =>
      cases sign <;> simp [bind_eq_ok_iff, map_eq_ok_iff, advance_cons, and_assoc, and_comm]
    | _ => simp [bind_eq_ok_iff, and_assoc]

theorem program_succ_iff {done ss : List Stmt} :
    program (n + 1) done c = .ok ss c' ↔
      (c.ahead = [] ∧ done.reverse = ss ∧ c = c') ∨
      (c.ahead ≠ [] ∧ ∃ s c₁, item n false c = .ok s c₁ ∧
        program n (s :: done) c₁ = .ok ss c') := by
  rw [program, next?_bind_eq]
  obtain ⟨_ | ⟨t, rest⟩, stop⟩ := c
  · simp
  · simp [bind_eq_ok_iff]

/-! ## Statements with statements inside -/

theorem functionDeclaration_succ_iff (hkw : c.Reads [kw] c₁) :
    functionDeclaration (n + 1) c = .ok s c' ↔
      ∃ t c₂ name l c₃ params c₄ r c₅ body, c₁.Reads [t] c₂ ∧ t.kind = .ident name ∧
        c₂.Reads [l] c₃ ∧ l.kind = .punct .leftParen ∧
        Omissible (.punct .rightParen) [] (parameters n []) c₃ params c₄ ∧
        c₄.Reads [r] c₅ ∧ r.kind = .punct .rightParen ∧ block n false c₅ = .ok body c' ∧
        .function ⟨name, params, body, kw.pos⟩ = s := by
  rw [functionDeclaration, here_advance_eq hkw, expectIdent_bind_eq_ok_iff]
  constructor
  · rintro ⟨t, c₂, name, ht, hkind, h⟩
    obtain ⟨l, c₃, hl, hopen, h⟩ := expect_bind_eq_ok_iff.1 h
    obtain ⟨params, c₄, hparams, h⟩ := omissible_bind_eq_ok_iff.1 h
    obtain ⟨r, c₅, hr, hclose, h⟩ := expect_bind_eq_ok_iff.1 h
    obtain ⟨body, c₆, hbody, h⟩ := bind_eq_ok_iff.1 h
    obtain ⟨rfl, rfl⟩ := pure_eq_ok_iff.1 h
    exact ⟨t, c₂, name, l, c₃, params, c₄, r, c₅, body, ht, hkind, hl, hopen, hparams, hr, hclose,
      hbody, rfl⟩
  · rintro ⟨t, c₂, name, l, c₃, params, c₄, r, c₅, body, ht, hkind, hl, hopen, hparams, hr, hclose,
      hbody, rfl⟩
    refine ⟨t, c₂, name, ht, hkind, expect_bind_eq_ok_iff.2 ⟨l, c₃, hl, hopen, ?_⟩⟩
    refine omissible_bind_eq_ok_iff.2 ⟨params, c₄, hparams, ?_⟩
    refine expect_bind_eq_ok_iff.2 ⟨r, c₅, hr, hclose, ?_⟩
    exact bind_eq_ok_iff.2 ⟨body, c', hbody, rfl⟩

theorem branchStatement_succ_iff (hkw : c.Reads [kw] c₁) :
    branchStatement (n + 1) inLoop c = .ok s c' ↔
      ∃ l c₂ condition c₃ r c₄ whenTrue c₅, c₁.Reads [l] c₂ ∧ l.kind = .punct .leftParen ∧
        expression n c₂ = .ok condition c₃ ∧ c₃.Reads [r] c₄ ∧ r.kind = .punct .rightParen ∧
        statement n inLoop c₄ = .ok whenTrue c₅ ∧
        ((¬ c₅.NextIs (.keyword .elseKw) ∧ .branch condition whenTrue none kw.pos = s ∧ c₅ = c') ∨
          ∃ els c₆ whenFalse, c₅.Reads [els] c₆ ∧ els.kind = .keyword .elseKw ∧
            statement n inLoop c₆ = .ok whenFalse c' ∧
            .branch condition whenTrue (some whenFalse) kw.pos = s) := by
  rw [branchStatement, here_advance_eq hkw, expect_bind_eq_ok_iff]
  constructor
  · rintro ⟨l, c₂, hl, hopen, h⟩
    obtain ⟨condition, c₃, hcondition, h⟩ := bind_eq_ok_iff.1 h
    obtain ⟨r, c₄, hr, hclose, h⟩ := expect_bind_eq_ok_iff.1 h
    obtain ⟨whenTrue, c₅, htrue, h⟩ := bind_eq_ok_iff.1 h
    refine ⟨l, c₂, condition, c₃, r, c₄, whenTrue, c₅, hl, hopen, hcondition, hr, hclose, htrue, ?_⟩
    rcases accept?_bind_eq_ok_iff.1 h with ⟨hnext, h⟩ | ⟨els, c₆, hels, hkind, h⟩
    · exact .inl ⟨hnext, pure_eq_ok_iff.1 h⟩
    · obtain ⟨whenFalse, c₇, hfalse, h⟩ := bind_eq_ok_iff.1 h
      obtain ⟨rfl, rfl⟩ := pure_eq_ok_iff.1 h
      exact .inr ⟨els, c₆, whenFalse, hels, hkind, hfalse, rfl⟩
  · rintro ⟨l, c₂, condition, c₃, r, c₄, whenTrue, c₅, hl, hopen, hcondition, hr, hclose, htrue, h⟩
    refine ⟨l, c₂, hl, hopen, bind_eq_ok_iff.2 ⟨condition, c₃, hcondition, ?_⟩⟩
    refine expect_bind_eq_ok_iff.2 ⟨r, c₄, hr, hclose, ?_⟩
    refine bind_eq_ok_iff.2 ⟨whenTrue, c₅, htrue, accept?_bind_eq_ok_iff.2 ?_⟩
    rcases h with ⟨hnext, rfl, rfl⟩ | ⟨els, c₆, whenFalse, hels, hkind, hfalse, rfl⟩
    · exact .inl ⟨hnext, rfl⟩
    · exact .inr ⟨els, c₆, hels, hkind, bind_eq_ok_iff.2 ⟨whenFalse, c', hfalse, rfl⟩⟩

theorem whileStatement_succ_iff (hkw : c.Reads [kw] c₁) :
    whileStatement (n + 1) c = .ok s c' ↔
      ∃ l c₂ condition c₃ r c₄ body, c₁.Reads [l] c₂ ∧ l.kind = .punct .leftParen ∧
        expression n c₂ = .ok condition c₃ ∧ c₃.Reads [r] c₄ ∧ r.kind = .punct .rightParen ∧
        statement n true c₄ = .ok body c' ∧ .loop condition body none kw.pos = s := by
  rw [whileStatement, here_advance_eq hkw, expect_bind_eq_ok_iff]
  constructor
  · rintro ⟨l, c₂, hl, hopen, h⟩
    obtain ⟨condition, c₃, hcondition, h⟩ := bind_eq_ok_iff.1 h
    obtain ⟨r, c₄, hr, hclose, h⟩ := expect_bind_eq_ok_iff.1 h
    obtain ⟨body, c₅, hbody, h⟩ := bind_eq_ok_iff.1 h
    obtain ⟨rfl, rfl⟩ := pure_eq_ok_iff.1 h
    exact ⟨l, c₂, condition, c₃, r, c₄, body, hl, hopen, hcondition, hr, hclose, hbody, rfl⟩
  · rintro ⟨l, c₂, condition, c₃, r, c₄, body, hl, hopen, hcondition, hr, hclose, hbody, rfl⟩
    refine ⟨l, c₂, hl, hopen, bind_eq_ok_iff.2 ⟨condition, c₃, hcondition, ?_⟩⟩
    refine expect_bind_eq_ok_iff.2 ⟨r, c₄, hr, hclose, ?_⟩
    exact bind_eq_ok_iff.2 ⟨body, c', hbody, rfl⟩

theorem forStatement_succ_iff (hkw : c.Reads [kw] c₁) :
    forStatement (n + 1) c = .ok s c' ↔
      ∃ l c₂ first c₃ condition c₄ r c₅ increment c₆ r' c₇ body, c₁.Reads [l] c₂ ∧
        l.kind = .punct .leftParen ∧ firstClause n c₂ = .ok first c₃ ∧
        Omissible (.punct .semicolon) (.literal (.bool true) kw.pos) (expression n) c₃
          condition c₄ ∧
        c₄.Reads [r] c₅ ∧ r.kind = .punct .semicolon ∧
        Omissible (.punct .rightParen) none (some <$> expression n) c₅ increment c₆ ∧
        c₆.Reads [r'] c₇ ∧ r'.kind = .punct .rightParen ∧ statement n true c₇ = .ok body c' ∧
        .block (first.toList ++ [.loop condition body increment kw.pos]) = s := by
  rw [forStatement, here_advance_eq hkw, expect_bind_eq_ok_iff]
  constructor
  · rintro ⟨l, c₂, hl, hopen, h⟩
    obtain ⟨first, c₃, hfirst, h⟩ := bind_eq_ok_iff.1 h
    obtain ⟨condition, c₄, hcondition, h⟩ := omissible_bind_eq_ok_iff.1 h
    obtain ⟨r, c₅, hr, hsemicolon, h⟩ := expect_bind_eq_ok_iff.1 h
    obtain ⟨increment, c₆, hincrement, h⟩ := omissible_bind_eq_ok_iff.1 h
    obtain ⟨r', c₇, hr', hclose, h⟩ := expect_bind_eq_ok_iff.1 h
    obtain ⟨body, c₈, hbody, h⟩ := bind_eq_ok_iff.1 h
    obtain ⟨rfl, rfl⟩ := pure_eq_ok_iff.1 h
    exact ⟨l, c₂, first, c₃, condition, c₄, r, c₅, increment, c₆, r', c₇, body, hl, hopen, hfirst,
      hcondition, hr, hsemicolon, hincrement, hr', hclose, hbody, rfl⟩
  · rintro ⟨l, c₂, first, c₃, condition, c₄, r, c₅, increment, c₆, r', c₇, body, hl, hopen, hfirst,
      hcondition, hr, hsemicolon, hincrement, hr', hclose, hbody, rfl⟩
    refine ⟨l, c₂, hl, hopen, bind_eq_ok_iff.2 ⟨first, c₃, hfirst, ?_⟩⟩
    refine omissible_bind_eq_ok_iff.2 ⟨condition, c₄, hcondition, ?_⟩
    refine expect_bind_eq_ok_iff.2 ⟨r, c₅, hr, hsemicolon, ?_⟩
    refine omissible_bind_eq_ok_iff.2 ⟨increment, c₆, hincrement, ?_⟩
    refine expect_bind_eq_ok_iff.2 ⟨r', c₇, hr', hclose, ?_⟩
    exact bind_eq_ok_iff.2 ⟨body, c', hbody, rfl⟩

end Grammar

end Script
