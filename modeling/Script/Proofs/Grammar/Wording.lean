import Script.Grammar.Statement
import Script.Proofs.Grammar.Keeping

/-!
# What is read has the words of its tokens

The names in a tree are words of the tokens it was read from, and so are the words in a diagnostic
about tokens of which no tree is read. The lexeme of a string, which may run over several lines, is
in no diagnostic: where a message shows the token that is in the wrong place, a string would have
been in the right one.

A reader whose budget is used up would stop at any token. So each reader is given what it needs: as
much as `Cursor.budget` allows for every token ahead, and a rank for the readers that call each
other in front of the same token.

- `Grammar.ExpressionWords.keepsTo`, `Grammar.StatementWords.keepsTo`: all readers of the grammar.
- `words_of_parse`: the program that a stream of tokens is, and the fault in one that is none.
-/

namespace Script

/-! ## Expressions -/

namespace Grammar

open Script.Parser

variable {W : String → Prop} {n bound : Nat} {c : Cursor}

theorem names_join (op : Operator) (left right : Expr) (pos : Position) :
    (op.join left right pos).names = left.names ++ right.names := by
  cases op <;> rfl

/-- A single token that is an expression has no names but its own. -/
theorem names_of_leaf? {t : Token} {e : Expr} (h : t.kind.leaf? t.pos = some e) :
    ∀ w ∈ e.names, w ∈ t.words := by
  obtain ⟨kind, lexeme, pos⟩ := t
  cases kind with
  | ident name =>
    obtain rfl := Option.some.inj h
    exact List.forall_mem_singleton.2 List.mem_cons_self
  | keyword word => cases word <;> cases h <;> exact List.forall_mem_nil _
  | _ => cases h <;> exact List.forall_mem_nil _

/-- A string is an expression. -/
theorem ne_string_of_leaf? {t : Token} (h : t.kind.leaf? t.pos = none) (value : String) :
    t.kind ≠ .string value := by
  intro hkind
  rw [hkind] at h
  cases h

/-- What the readers of expressions keep to, if their budget allows for the tokens ahead. -/
structure ExpressionWords (W : String → Prop) (n : Nat) : Prop where
  expression {c : Cursor} {bound : Nat} (hn : 16 * c.ahead.length + 4 ≤ n)
    (hb : c.ahead.length ≤ bound) : KeepsTo W (expression n) c (Gives W bound Expr.names)
  operation (level : Nat) {c : Cursor} {bound : Nat} (hn : 16 * c.ahead.length + 3 ≤ n)
    (hb : c.ahead.length ≤ bound) : KeepsTo W (operation n level) c (Gives W bound Expr.names)
  operators (level : Nat) {left : Expr} {c : Cursor} {bound : Nat}
    (hleft : ∀ w ∈ left.names, W w) (hn : 16 * c.ahead.length + 1 ≤ n)
    (hb : c.ahead.length < bound) : KeepsTo W (operators n level left) c (Gives W bound Expr.names)
  unary {c : Cursor} {bound : Nat} (hn : 16 * c.ahead.length + 2 ≤ n)
    (hb : c.ahead.length ≤ bound) : KeepsTo W (unary n) c (Gives W bound Expr.names)
  calls {callee : Expr} {c : Cursor} {bound : Nat} (hcallee : ∀ w ∈ callee.names, W w)
    (hn : 16 * c.ahead.length + 1 ≤ n) (hb : c.ahead.length < bound) :
    KeepsTo W (calls n callee) c (Gives W bound Expr.names)
  arguments {done : List Expr} {c : Cursor} {bound : Nat}
    (hdone : ∀ w ∈ done.flatMap Expr.names, W w) (hn : 16 * c.ahead.length + 5 ≤ n)
    (hb : c.ahead.length ≤ bound) :
    KeepsTo W (arguments n done) c (Gives W bound (List.flatMap Expr.names))
  closed {c : Cursor} {bound : Nat} (hn : 16 * c.ahead.length + 1 ≤ n)
    (hb : c.ahead.length ≤ bound) : KeepsTo W (closed n) c (Gives W bound Expr.names)

theorem ExpressionWords.expression_succ (h : ExpressionWords W n)
    (hn : 16 * c.ahead.length + 4 ≤ n + 1) (hb : c.ahead.length ≤ bound) :
    KeepsTo W (Grammar.expression (n + 1)) c (Gives W bound Expr.names) := by
  rw [Grammar.expression]
  refine (h.operation 1 (by omega) (Nat.le_refl _)).bind fun target c₁ ⟨htarget, hless⟩ => ?_
  refine .accept?_bind (.pure ⟨htarget, by omega⟩) fun pos c₂ hless₂ => ?_
  refine (h.expression (by omega) (Nat.le_refl _)).bind fun value c₃ ⟨hvalue, hless₃⟩ => ?_
  cases target with
  | ident name start =>
    exact .pure ⟨List.forall_mem_cons.2 ⟨htarget name List.mem_cons_self, hvalue⟩, by omega⟩
  | _ => exact .failAt (List.forall_mem_nil _)

theorem ExpressionWords.operators_succ (h : ExpressionWords W n) (level : Nat) {left : Expr}
    (hleft : ∀ w ∈ left.names, W w) (hn : 16 * c.ahead.length + 1 ≤ n + 1)
    (hb : c.ahead.length < bound) :
    KeepsTo W (Grammar.operators (n + 1) level left) c (Gives W bound Expr.names) := by
  rw [Grammar.operators]
  refine .next?_bind (fun _ => .pure ⟨hleft, hb⟩) fun t ht _ => ?_
  have hpos := Cursor.length_pos_of_head? ht
  dsimp only
  cases t.kind.operator? with
  | none => exact .pure ⟨hleft, hb⟩
  | some op =>
    refine .ite (.pure ⟨hleft, hb⟩) (.advance_bind fun c₁ hless => ?_)
    refine (h.operation (op.level + 1) (by omega) (Nat.le_refl _)).bind
      fun right c₂ ⟨hright, hless₂⟩ => ?_
    refine h.operators level ?_ (by omega) (by omega)
    rw [names_join]
    exact List.forall_mem_append.2 ⟨hleft, hright⟩

theorem ExpressionWords.unary_succ (h : ExpressionWords W n) (hn : 16 * c.ahead.length + 2 ≤ n + 1)
    (hb : c.ahead.length ≤ bound) :
    KeepsTo W (Grammar.unary (n + 1)) c (Gives W bound Expr.names) := by
  rw [Grammar.unary]
  refine .next?_bind .unexpected_of_end fun t ht _ => ?_
  have hpos := Cursor.length_pos_of_head? ht
  dsimp only
  cases t.kind.unaryOp? with
  | some op =>
    refine .advance_bind fun c₁ hless => ?_
    refine (h.unary (by omega) (Nat.le_refl _)).bind fun operand c₂ ⟨hoperand, hless₂⟩ => ?_
    exact .pure ⟨hoperand, by omega⟩
  | none =>
    refine (h.closed (by omega) (Nat.le_refl _)).bind fun callee c₁ ⟨hcallee, hless⟩ => ?_
    exact h.calls hcallee (by omega) (by omega)

theorem ExpressionWords.calls_succ (h : ExpressionWords W n) {callee : Expr}
    (hcallee : ∀ w ∈ callee.names, W w) (hn : 16 * c.ahead.length + 1 ≤ n + 1)
    (hb : c.ahead.length < bound) :
    KeepsTo W (Grammar.calls (n + 1) callee) c (Gives W bound Expr.names) := by
  -- what follows the arguments
  have hcall : ∀ args c', Gives W c.ahead.length (List.flatMap Expr.names) args c' →
      KeepsTo W (do
        let pos ← expect .rightParen .argumentsEnd
        Grammar.calls n (.call callee args pos)) c' (Gives W bound Expr.names) := by
    rintro args c₁ ⟨hargs, hless⟩
    refine .expect_bind (List.forall_mem_nil _) fun pos c₂ hless₂ => ?_
    refine h.calls ?_ (by omega) (by omega)
    rw [Expr.names, Expr.namesEach_eq_flatMap]
    exact List.forall_mem_append.2 ⟨hcallee, hargs⟩
  rw [Grammar.calls]
  refine .accept?_bind (.pure ⟨hcallee, hb⟩) fun _ c₁ hless => .nextIs_bind fun empty => .ite ?_ ?_
  · exact KeepsTo.bind (.pure ⟨List.forall_mem_nil _, hless⟩) hcall
  · exact (h.arguments (List.forall_mem_nil _) (by omega) (Nat.le_of_lt hless)).bind hcall

theorem ExpressionWords.arguments_succ (h : ExpressionWords W n) {done : List Expr}
    (hdone : ∀ w ∈ done.flatMap Expr.names, W w) (hn : 16 * c.ahead.length + 5 ≤ n + 1)
    (hb : c.ahead.length ≤ bound) :
    KeepsTo W (Grammar.arguments (n + 1) done) c (Gives W bound (List.flatMap Expr.names)) := by
  rw [Grammar.arguments]
  refine .ite (.fail (List.forall_mem_nil _)) ?_
  refine (h.expression (by omega) (Nat.le_refl _)).bind fun arg c₁ ⟨harg, hless⟩ => ?_
  have hmore : ∀ w ∈ (arg :: done).flatMap Expr.names, W w := by
    rw [List.flatMap_cons]
    exact List.forall_mem_append.2 ⟨harg, hdone⟩
  refine .accept?_bind (.pure ⟨fun w hw => ?_, by omega⟩) fun _ c₂ hless₂ => ?_
  · obtain ⟨e, he, hw⟩ := List.mem_flatMap.1 hw
    exact hmore w (List.mem_flatMap.2 ⟨e, List.mem_reverse.1 he, hw⟩)
  · exact h.arguments hmore (by omega) (by omega)

theorem ExpressionWords.closed_succ (h : ExpressionWords W n) (hn : 16 * c.ahead.length + 1 ≤ n + 1)
    (hb : c.ahead.length ≤ bound) :
    KeepsTo W (Grammar.closed (n + 1)) c (Gives W bound Expr.names) := by
  rw [Grammar.closed]
  refine .next?_bind .unexpected_of_end fun t ht hwords => ?_
  have hpos := Cursor.length_pos_of_head? ht
  dsimp only
  cases hleaf : t.kind.leaf? t.pos with
  | some e =>
    refine .advance_bind fun c₁ hless => .pure ⟨fun w hw => ?_, by omega⟩
    exact hwords w (names_of_leaf? hleaf w hw)
  | none =>
    refine .ite (.advance_bind fun c₁ hless => ?_) (.unexpected fun u hu => ?_)
    · refine (h.expression (by omega) (Nat.le_refl _)).bind fun inner c₂ ⟨hinner, hless₂⟩ => ?_
      exact .expect_bind (List.forall_mem_nil _) fun _ c₃ hless₃ => .pure ⟨hinner, by omega⟩
    · obtain rfl := Option.some.inj (ht.symm.trans hu)
      exact ne_string_of_leaf? hleaf

/-- **All readers of expressions keep to the words of their tokens.** -/
theorem ExpressionWords.keepsTo (W : String → Prop) (n : Nat) : ExpressionWords W n := by
  induction n with
  | zero =>
    refine { expression := ?_, operation := ?_, operators := ?_, unary := ?_, calls := ?_,
             arguments := ?_, closed := ?_ }
    all_goals intros; omega
  | succ n ih =>
    exact
      { expression := ih.expression_succ
        operation := fun level {c bound} hn hb => by
          rw [Grammar.operation]
          refine (ih.unary (by omega) (Nat.le_refl _)).bind fun left c₁ ⟨hleft, hless⟩ => ?_
          exact ih.operators level hleft (by omega) (by omega)
        operators := fun level => ih.operators_succ level
        unary := ih.unary_succ
        calls := ih.calls_succ
        arguments := ih.arguments_succ
        closed := ih.closed_succ }

/-! ## Statements without statements inside -/

/-- The names in an expression, if there is one. -/
abbrev namesIn (e : Option Expr) : List String := e.toList.flatMap Expr.names

/-- An expression where there need not be one. -/
theorem some_expression_keepsTo (hn : 16 * c.ahead.length + 4 ≤ n) (hb : c.ahead.length ≤ bound) :
    KeepsTo W (some <$> expression n) c (Gives W bound namesIn) := by
  refine ((ExpressionWords.keepsTo W n).expression hn hb).map fun e c₁ ⟨he, hless⟩ => ⟨?_, hless⟩
  rw [namesIn, Option.toList_some, List.flatMap_singleton]
  exact he

theorem declaration_keepsTo (hn : 16 * c.ahead.length + 4 ≤ n) (hb : c.ahead.length ≤ bound) :
    KeepsTo W (declaration n) c (Gives W bound Stmt.names) := by
  unfold declaration
  refine .here_bind fun pos => .advance_bind fun c₁ hless => ?_
  refine .expectIdent_bind (List.forall_mem_nil _) fun name c₂ hname hless₂ => ?_
  have hrest : ∀ initial c', Gives W c₂.ahead.length.succ namesIn initial c' →
      KeepsTo W (do
        let _ ← expect .semicolon .declarationEnd
        pure (.declare name initial pos)) c' (Gives W bound Stmt.names) := by
    rintro initial c₃ ⟨hinitial, hless₃⟩
    refine .expect_bind (List.forall_mem_nil _) fun _ c₄ hless₄ => .pure ⟨?_, by omega⟩
    exact List.forall_mem_cons.2 ⟨hname, hinitial⟩
  refine .accept?_bind ?_ fun _ c₃ hless₃ => ?_
  · exact KeepsTo.bind (.pure ⟨List.forall_mem_nil _, by omega⟩) hrest
  · exact (some_expression_keepsTo (by omega) (by omega)).bind hrest

theorem expressionStatement_keepsTo (hn : 16 * c.ahead.length + 4 ≤ n)
    (hb : c.ahead.length ≤ bound) :
    KeepsTo W (expressionStatement n) c (Gives W bound Stmt.names) := by
  refine ((ExpressionWords.keepsTo W n).expression hn hb).bind fun e c₁ ⟨he, hless⟩ => ?_
  exact .expect_bind (List.forall_mem_nil _) fun _ c₂ hless₂ => .pure ⟨he, by omega⟩

theorem printStatement_keepsTo (hn : 16 * c.ahead.length + 4 ≤ n) (hb : c.ahead.length ≤ bound) :
    KeepsTo W (printStatement n) c (Gives W bound Stmt.names) := by
  unfold printStatement
  refine .here_bind fun pos => .advance_bind fun c₁ hless => ?_
  refine ((ExpressionWords.keepsTo W n).expression (by omega) (Nat.le_refl _)).bind
    fun e c₂ ⟨he, hless₂⟩ => ?_
  exact .expect_bind (List.forall_mem_nil _) fun _ c₃ hless₃ => .pure ⟨he, by omega⟩

theorem returnStatement_keepsTo (hn : 16 * c.ahead.length + 4 ≤ n) (hb : c.ahead.length ≤ bound) :
    KeepsTo W (returnStatement n) c (Gives W bound Stmt.names) := by
  unfold returnStatement
  refine .here_bind fun pos => .advance_bind fun c₁ hless => .nextIs_bind fun bare => ?_
  have hrest : ∀ value c', Gives W c₁.ahead.length.succ namesIn value c' →
      KeepsTo W (do
        let _ ← expect .semicolon .returnEnd
        pure (.giveBack value pos)) c' (Gives W bound Stmt.names) := by
    rintro value c₂ ⟨hvalue, hless₂⟩
    exact .expect_bind (List.forall_mem_nil _) fun _ c₃ hless₃ => .pure ⟨hvalue, by omega⟩
  refine .ite ?_ ?_
  · exact KeepsTo.bind (.pure ⟨List.forall_mem_nil _, by omega⟩) hrest
  · exact (some_expression_keepsTo (by omega) (by omega)).bind hrest

/-- A jump is shown by its keyword. -/
theorem jumpStatement_keepsTo {inLoop : Bool} {jump : Position → Stmt}
    (hjump : ∀ pos, (jump pos).names = []) {t : Token} {word : Keyword}
    (ht : c.ahead.head? = some t) (hword : t.kind = .keyword word) (hb : c.ahead.length ≤ bound) :
    KeepsTo W (jumpStatement inLoop jump) c (Gives W bound Stmt.names) := by
  unfold jumpStatement
  refine .next?_bind .unexpected_of_end fun u hu hwords => .advance_bind fun c₁ hless => ?_
  obtain rfl := Option.some.inj (ht.symm.trans hu)
  have hpos := Cursor.length_pos_of_head? ht
  have hlexeme : W t.lexeme := by
    refine hwords _ (Token.lexeme_mem_words fun value hkind => ?_)
    rw [hword] at hkind
    cases hkind
  refine .ite ?_ (.failAt (List.forall_mem_singleton.2 hlexeme))
  refine .expect_bind (List.forall_mem_singleton.2 hlexeme) fun _ c₂ hless₂ => ?_
  refine .pure ⟨?_, by omega⟩
  rw [hjump]
  exact List.forall_mem_nil _

theorem parameters_keepsTo (n : Nat) {done : List Param} {c : Cursor} {bound : Nat}
    (hdone : ∀ w ∈ done.map (·.name), W w) (hn : 16 * c.ahead.length + 1 ≤ n)
    (hb : c.ahead.length ≤ bound) :
    KeepsTo W (parameters n done) c (Gives W bound (List.map (·.name))) := by
  induction n generalizing done c with
  | zero => omega
  | succ n ih =>
    rw [parameters]
    refine .ite (.fail (List.forall_mem_nil _)) (.here_bind fun pos => ?_)
    refine .expectIdent_bind (List.forall_mem_nil _) fun name c₁ hname hless => ?_
    refine .ite (.failAt (List.forall_mem_singleton.2 hname)) ?_
    have hmore : ∀ w ∈ (⟨name, pos⟩ :: done : List Param).map (·.name), W w :=
      List.forall_mem_cons.2 ⟨hname, hdone⟩
    refine .accept?_bind (.pure ⟨fun w hw => hmore w ?_, by omega⟩) fun _ c₂ hless₂ => ?_
    · rw [List.map_reverse] at hw
      exact List.mem_reverse.1 hw
    · exact ih hmore (by omega) (by omega)

theorem firstClause_keepsTo (hn : 16 * c.ahead.length + 4 ≤ n) (hb : c.ahead.length ≤ bound) :
    KeepsTo W (firstClause n) c (Gives W bound.succ fun s => s.toList.flatMap Stmt.names) := by
  have hsome {p : Parser Stmt} (hp : KeepsTo W p c (Gives W bound Stmt.names)) :
      KeepsTo W (some <$> p) c (Gives W bound.succ fun s => s.toList.flatMap Stmt.names) := by
    refine hp.map fun st c₁ ⟨hst, hless⟩ => ⟨?_, by omega⟩
    rw [Option.toList_some, List.flatMap_singleton]
    exact hst
  unfold firstClause
  refine .nextKind?_bind (hsome (expressionStatement_keepsTo hn hb)) fun t ht => ?_
  split
  · exact .advance_bind fun c₁ hless => .pure ⟨List.forall_mem_nil _, by omega⟩
  · exact hsome (declaration_keepsTo hn hb)
  · exact hsome (expressionStatement_keepsTo hn hb)

/-! ## Statements with statements inside -/

/-- What the readers of statements keep to, if their budget allows for the tokens ahead. -/
structure StatementWords (W : String → Prop) (n : Nat) : Prop where
  item (inLoop : Bool) {c : Cursor} {bound : Nat} (hn : 16 * c.ahead.length + 6 ≤ n)
    (hb : c.ahead.length ≤ bound) : KeepsTo W (item n inLoop) c (Gives W bound Stmt.names)
  functionDeclaration {c : Cursor} {bound : Nat} (hn : 16 * c.ahead.length + 1 ≤ n)
    (hb : c.ahead.length ≤ bound) :
    KeepsTo W (functionDeclaration n) c (Gives W bound Stmt.names)
  statement (inLoop : Bool) {c : Cursor} {bound : Nat} (hn : 16 * c.ahead.length + 5 ≤ n)
    (hb : c.ahead.length ≤ bound) : KeepsTo W (statement n inLoop) c (Gives W bound Stmt.names)
  block (inLoop : Bool) {c : Cursor} {bound : Nat} (hn : 16 * c.ahead.length + 1 ≤ n)
    (hb : c.ahead.length ≤ bound) :
    KeepsTo W (block n inLoop) c (Gives W bound (List.flatMap Stmt.names))
  items (inLoop : Bool) {done : List Stmt} {c : Cursor} {bound : Nat}
    (hdone : ∀ w ∈ done.flatMap Stmt.names, W w) (hn : 16 * c.ahead.length + 7 ≤ n)
    (hb : c.ahead.length ≤ bound) :
    KeepsTo W (items n inLoop done) c (Gives W bound (List.flatMap Stmt.names))
  branchStatement (inLoop : Bool) {c : Cursor} {bound : Nat} (hn : 16 * c.ahead.length + 1 ≤ n)
    (hb : c.ahead.length ≤ bound) :
    KeepsTo W (branchStatement n inLoop) c (Gives W bound Stmt.names)
  whileStatement {c : Cursor} {bound : Nat} (hn : 16 * c.ahead.length + 1 ≤ n)
    (hb : c.ahead.length ≤ bound) : KeepsTo W (whileStatement n) c (Gives W bound Stmt.names)
  forStatement {c : Cursor} {bound : Nat} (hn : 16 * c.ahead.length + 1 ≤ n)
    (hb : c.ahead.length ≤ bound) : KeepsTo W (forStatement n) c (Gives W bound Stmt.names)

/-- The names in statements do not depend on their order. -/
theorem names_reverse {done : List Stmt} (h : ∀ w ∈ done.flatMap Stmt.names, W w) :
    ∀ w ∈ done.reverse.flatMap Stmt.names, W w := by
  intro w hw
  obtain ⟨st, hst, hw⟩ := List.mem_flatMap.1 hw
  exact h w (List.mem_flatMap.2 ⟨st, List.mem_reverse.1 hst, hw⟩)

theorem StatementWords.item_succ (h : StatementWords W n) (inLoop : Bool)
    (hn : 16 * c.ahead.length + 6 ≤ n + 1) (hb : c.ahead.length ≤ bound) :
    KeepsTo W (Grammar.item (n + 1) inLoop) c (Gives W bound Stmt.names) := by
  rw [Grammar.item]
  refine .nextKind?_bind (h.statement inLoop (by omega) hb) fun t ht => ?_
  split
  · exact declaration_keepsTo (by omega) hb
  · exact h.functionDeclaration (by omega) hb
  · exact h.statement inLoop (by omega) hb

theorem StatementWords.functionDeclaration_succ (h : StatementWords W n)
    (hn : 16 * c.ahead.length + 1 ≤ n + 1) (hb : c.ahead.length ≤ bound) :
    KeepsTo W (Grammar.functionDeclaration (n + 1)) c (Gives W bound Stmt.names) := by
  rw [Grammar.functionDeclaration]
  refine .here_bind fun pos => .advance_bind fun c₁ hless => ?_
  refine .expectIdent_bind (List.forall_mem_nil _) fun name c₂ hname hless₂ => ?_
  refine .expect_bind (List.forall_mem_nil _) fun _ c₃ hless₃ => .nextIs_bind fun empty => ?_
  have hrest : ∀ params c', Gives W c₃.ahead.length.succ (List.map (·.name)) params c' →
      KeepsTo W (do
        let _ ← expect .rightParen .parametersEnd
        let body ← Grammar.block n false
        pure (.function ⟨name, params, body, pos⟩)) c' (Gives W bound Stmt.names) := by
    rintro params c₄ ⟨hparams, hless₄⟩
    refine .expect_bind (List.forall_mem_nil _) fun _ c₅ hless₅ => ?_
    refine (h.block false (by omega) (Nat.le_refl _)).bind fun body c₆ ⟨hbody, hless₆⟩ => ?_
    refine .pure ⟨?_, by omega⟩
    rw [Stmt.names, FunDecl.names_eq]
    exact List.forall_mem_cons.2 ⟨hname, List.forall_mem_append.2 ⟨hparams, hbody⟩⟩
  refine .ite ?_ ?_
  · exact KeepsTo.bind (.pure ⟨List.forall_mem_nil _, by omega⟩) hrest
  · exact (parameters_keepsTo n (List.forall_mem_nil _) (by omega) (by omega)).bind hrest

theorem StatementWords.statement_succ (h : StatementWords W n) (inLoop : Bool)
    (hn : 16 * c.ahead.length + 5 ≤ n + 1) (hb : c.ahead.length ≤ bound) :
    KeepsTo W (Grammar.statement (n + 1) inLoop) c (Gives W bound Stmt.names) := by
  rw [Grammar.statement]
  refine .nextKind?_bind (expressionStatement_keepsTo (by omega) hb) fun t ht => ?_
  split
  · exact printStatement_keepsTo (by omega) hb
  · refine (h.block inLoop (by omega) hb).map fun body c₁ ⟨hbody, hless⟩ => ⟨?_, hless⟩
    rw [Stmt.names, Stmt.namesEach_eq_flatMap]
    exact hbody
  · exact h.branchStatement inLoop (by omega) hb
  · exact h.whileStatement (by omega) hb
  · exact h.forStatement (by omega) hb
  · rename_i hkind
    exact jumpStatement_keepsTo (fun _ => rfl) ht (Option.some.inj hkind) hb
  · rename_i hkind
    exact jumpStatement_keepsTo (fun _ => rfl) ht (Option.some.inj hkind) hb
  · exact returnStatement_keepsTo (by omega) hb
  · exact expressionStatement_keepsTo (by omega) hb

theorem StatementWords.items_succ (h : StatementWords W n) (inLoop : Bool) {done : List Stmt}
    (hdone : ∀ w ∈ done.flatMap Stmt.names, W w) (hn : 16 * c.ahead.length + 7 ≤ n + 1)
    (hb : c.ahead.length ≤ bound) :
    KeepsTo W (Grammar.items (n + 1) inLoop done) c (Gives W bound (List.flatMap Stmt.names)) := by
  rw [Grammar.items]
  refine .nextKind?_bind (.fail (List.forall_mem_nil _)) fun t ht => ?_
  have hpos := Cursor.length_pos_of_head? ht
  split
  · rename_i hkind
    cases hkind
  · exact .advance_bind fun c₁ hless => .pure ⟨names_reverse hdone, by omega⟩
  · refine (h.item inLoop (by omega) (Nat.le_refl _)).bind fun st c₁ ⟨hst, hless⟩ => ?_
    refine h.items inLoop ?_ (by omega) (by omega)
    rw [List.flatMap_cons]
    exact List.forall_mem_append.2 ⟨hst, hdone⟩

theorem StatementWords.branchStatement_succ (h : StatementWords W n) (inLoop : Bool)
    (hn : 16 * c.ahead.length + 1 ≤ n + 1) (hb : c.ahead.length ≤ bound) :
    KeepsTo W (Grammar.branchStatement (n + 1) inLoop) c (Gives W bound Stmt.names) := by
  rw [Grammar.branchStatement]
  refine .here_bind fun pos => .advance_bind fun c₁ hless => ?_
  refine .expect_bind (List.forall_mem_nil _) fun _ c₂ hless₂ => ?_
  refine ((ExpressionWords.keepsTo W n).expression (by omega) (Nat.le_refl _)).bind
    fun condition c₃ ⟨hcondition, hless₃⟩ => ?_
  refine .expect_bind (List.forall_mem_nil _) fun _ c₄ hless₄ => ?_
  refine (h.statement inLoop (by omega) (Nat.le_refl _)).bind
    fun whenTrue c₅ ⟨htrue, hless₅⟩ => ?_
  refine .accept?_bind (.pure ⟨?_, by omega⟩) fun _ c₆ hless₆ => ?_
  · exact List.forall_mem_append.2 ⟨hcondition, List.forall_mem_append.2
      ⟨htrue, List.forall_mem_nil _⟩⟩
  · refine (h.statement inLoop (by omega) (Nat.le_refl _)).bind
      fun whenFalse c₇ ⟨hfalse, hless₇⟩ => .pure ⟨?_, by omega⟩
    exact List.forall_mem_append.2 ⟨hcondition, List.forall_mem_append.2 ⟨htrue, hfalse⟩⟩

theorem StatementWords.whileStatement_succ (h : StatementWords W n)
    (hn : 16 * c.ahead.length + 1 ≤ n + 1) (hb : c.ahead.length ≤ bound) :
    KeepsTo W (Grammar.whileStatement (n + 1)) c (Gives W bound Stmt.names) := by
  rw [Grammar.whileStatement]
  refine .here_bind fun pos => .advance_bind fun c₁ hless => ?_
  refine .expect_bind (List.forall_mem_nil _) fun _ c₂ hless₂ => ?_
  refine ((ExpressionWords.keepsTo W n).expression (by omega) (Nat.le_refl _)).bind
    fun condition c₃ ⟨hcondition, hless₃⟩ => ?_
  refine .expect_bind (List.forall_mem_nil _) fun _ c₄ hless₄ => ?_
  refine (h.statement true (by omega) (Nat.le_refl _)).bind
    fun body c₅ ⟨hbody, hless₅⟩ => .pure ⟨?_, by omega⟩
  exact List.forall_mem_append.2 ⟨hcondition, List.forall_mem_append.2
    ⟨hbody, List.forall_mem_nil _⟩⟩

theorem StatementWords.forStatement_succ (h : StatementWords W n)
    (hn : 16 * c.ahead.length + 1 ≤ n + 1) (hb : c.ahead.length ≤ bound) :
    KeepsTo W (Grammar.forStatement (n + 1)) c (Gives W bound Stmt.names) := by
  rw [Grammar.forStatement]
  refine .here_bind fun pos => .advance_bind fun c₁ hless => ?_
  refine .expect_bind (List.forall_mem_nil _) fun _ c₂ hless₂ => ?_
  refine (firstClause_keepsTo (by omega) (Nat.le_refl _)).bind
    fun first c₃ ⟨hfirst, hless₃⟩ => .nextIs_bind fun unconditional => ?_
  have hbody : ∀ condition : Expr, (∀ w ∈ condition.names, W w) → ∀ increment c',
      Gives W c₃.ahead.length.succ namesIn increment c' →
      KeepsTo W (do
        let _ ← expect .rightParen .forClausesEnd
        let body ← Grammar.statement n true
        pure (.block (first.toList ++ [.loop condition body increment pos]))) c'
        (Gives W bound Stmt.names) := by
    rintro condition hcondition increment c₄ ⟨hincrement, hless₄⟩
    refine .expect_bind (List.forall_mem_nil _) fun _ c₅ hless₅ => ?_
    refine (h.statement true (by omega) (Nat.le_refl _)).bind
      fun body c₆ ⟨hbody, hless₆⟩ => .pure ⟨?_, by omega⟩
    rw [Stmt.names, Stmt.namesEach_eq_flatMap, List.flatMap_append, List.flatMap_singleton]
    exact List.forall_mem_append.2 ⟨hfirst, List.forall_mem_append.2
      ⟨hcondition, List.forall_mem_append.2 ⟨hbody, hincrement⟩⟩⟩
  have hclauses : ∀ condition c', Gives W c₃.ahead.length.succ Expr.names condition c' →
      KeepsTo W (do
        let _ ← expect .semicolon .forConditionEnd
        let increment ← if ← nextIs (.punct .rightParen) then pure none
          else some <$> Grammar.expression n
        let _ ← expect .rightParen .forClausesEnd
        let body ← Grammar.statement n true
        pure (.block (first.toList ++ [.loop condition body increment pos]))) c'
        (Gives W bound Stmt.names) := by
    rintro condition c₄ ⟨hcondition, hless₄⟩
    refine .expect_bind (List.forall_mem_nil _) fun _ c₅ hless₅ => .nextIs_bind fun bare => ?_
    refine .ite ?_ ?_
    · exact KeepsTo.bind (.pure ⟨List.forall_mem_nil _, by omega⟩) (hbody condition hcondition)
    · exact (some_expression_keepsTo (by omega) (by omega)).bind (hbody condition hcondition)
  refine .ite ?_ ?_
  · exact KeepsTo.bind (.pure ⟨List.forall_mem_nil _, by omega⟩) hclauses
  · exact ((ExpressionWords.keepsTo W n).expression (by omega) (by omega)).bind hclauses

/-- **All readers of statements keep to the words of their tokens.** -/
theorem StatementWords.keepsTo (W : String → Prop) (n : Nat) : StatementWords W n := by
  induction n with
  | zero =>
    refine { item := ?_, functionDeclaration := ?_, statement := ?_, block := ?_, items := ?_,
             branchStatement := ?_, whileStatement := ?_, forStatement := ?_ }
    all_goals intros; omega
  | succ n ih =>
    exact
      { item := fun inLoop => ih.item_succ inLoop
        functionDeclaration := ih.functionDeclaration_succ
        statement := fun inLoop => ih.statement_succ inLoop
        block := fun inLoop {c bound} hn hb => by
          rw [Grammar.block]
          refine .expect_bind (List.forall_mem_nil _) fun _ c₁ hless => ?_
          exact ih.items inLoop (List.forall_mem_nil _) (by omega) (by omega)
        items := fun inLoop => ih.items_succ inLoop
        branchStatement := fun inLoop => ih.branchStatement_succ inLoop
        whileStatement := ih.whileStatement_succ
        forStatement := ih.forStatement_succ }

theorem program_keepsTo (n : Nat) {done : List Stmt} {c : Cursor}
    (hdone : ∀ w ∈ done.flatMap Stmt.names, W w) (hn : 16 * c.ahead.length + 7 ≤ n) :
    KeepsTo W (program n done) c fun ss _ => ∀ w ∈ ss.flatMap Stmt.names, W w := by
  induction n generalizing done c with
  | zero => omega
  | succ n ih =>
    rw [program]
    refine .next?_bind (fun _ => .pure (names_reverse hdone)) fun t ht _ => ?_
    refine ((StatementWords.keepsTo W n).item false (by omega) (Nat.le_refl _)).bind
      fun st c₁ ⟨hst, hless⟩ => ih ?_ (by omega)
    rw [List.flatMap_cons]
    exact List.forall_mem_append.2 ⟨hst, hdone⟩

end Grammar

/-! ## Programs -/

/-- **What a stream of tokens is read as has no words but those of the tokens**: neither the program
that it is, nor the fault in it. -/
theorem words_of_parse {W : String → Prop} {tokens : List Token}
    (htokens : ∀ t ∈ tokens, ∀ w ∈ t.words, W w) (hstop : W "end of input") :
    match parse tokens with
    | .ok program => ∀ w ∈ program.flatMap Stmt.names, W w
    | .error d => ∀ w ∈ d.fault.words, W w := by
  have hwithin : (Cursor.ofTokens tokens).Within W :=
    ⟨fun t ht => htokens t ((List.takeWhile_sublist _).subset ht), hstop⟩
  have hbudget : 16 * (Cursor.ofTokens tokens).ahead.length + 7 ≤
      (Cursor.ofTokens tokens).budget := by
    unfold Cursor.budget
    omega
  have hnothing : ∀ w ∈ ([] : List Stmt).flatMap Stmt.names, W w := List.forall_mem_nil _
  have hend := Grammar.program_keepsTo _ hnothing hbudget hwithin
  unfold parse Program.parser
  cases hread : Grammar.program (Cursor.ofTokens tokens).budget [] (Cursor.ofTokens tokens) with
  | ok program c =>
    rw [hread] at hend
    exact hend.2
  | error d c =>
    rw [hread] at hend
    exact hend

end Script
