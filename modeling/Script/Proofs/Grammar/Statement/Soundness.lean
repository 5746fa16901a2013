import Script.Proofs.Grammar.Statement.Derivation
import Script.Proofs.Grammar.Statement.Readers

/-!
# What is read is a statement of the grammar

A reader of statements that succeeds has moved over tokens from which the grammar derives its
result. If the statement that was read is open, no `else` follows, so an `else` is always taken by
the nearest `if` that can take it.

- `Grammar.Between`: a derivation from the tokens between two positions of a cursor.
- `Grammar.StatementsSound`: what the readers promise for one budget; `Grammar.statementsSound`
  holds for every budget.
- `Grammar.program_sound`: what a program that is read is derived from.
-/

namespace Script

namespace Grammar

open Script.Parser Script.Derivation

variable {n : Nat} {inLoop : Bool} {c c₁ c' : Cursor} {s : Stmt} {e : Expr} {kw : Token}

/-- Between `c` and `c'` stand tokens from which `a` is derived. -/
def Between {α : Type} (derives : α → List Token → Prop) (a : α) (c c' : Cursor) : Prop :=
  ∃ read, c.Reads read c' ∧ derives a read

/-! ## Parts -/

theorem segment_of_expression (h : expression n c = .ok e c') :
    ∃ read, c.Reads read c' ∧ e.Segment read := by
  obtain ⟨⟨-, hcanonical, read, hread, hwritten⟩, -⟩ := (sound n).expression h
  exact ⟨read, hread, Expr.segment_iff.2 ⟨hcanonical, hwritten⟩⟩

/-- A part that is left out in front of `kind`. -/
theorem optional_of_omissible {kind : TokenKind} {value : Option Expr}
    (h : Omissible kind none (some <$> expression n) c value c') : Between Optional value c c' := by
  rcases h with ⟨-, rfl, rfl⟩ | ⟨-, h⟩
  · exact ⟨[], .refl c, .absent⟩
  · obtain ⟨e, he, rfl⟩ := map_eq_ok_iff.1 h
    obtain ⟨read, hread, hsegment⟩ := segment_of_expression he
    exact ⟨read, hread, .present hsegment⟩

theorem condition_of_omissible {kind : TokenKind} {pos : Position}
    (h : Omissible kind (.literal (.bool true) pos) (expression n) c e c') :
    Between (Condition pos) e c c' := by
  rcases h with ⟨-, rfl, rfl⟩ | ⟨-, h⟩
  · exact ⟨[], .refl c, .always⟩
  · obtain ⟨read, hread, hsegment⟩ := segment_of_expression h
    exact ⟨read, hread, .given hsegment⟩

theorem declaration_sound (hkind : c.NextIs (.keyword .varKw)) (h : declaration n c = .ok s c') :
    Between Declaration s c c' := by
  obtain ⟨kw, c₁, hkw, hkind⟩ := hkind.reads
  obtain ⟨t, c₂, name, initial, c₃, r, ht, hname, hinitial, hr, hsemicolon, rfl⟩ :=
    (declaration_eq_ok_iff hkw).1 h
  rcases hinitial with ⟨-, rfl, rfl⟩ | ⟨eq, c₄, e, heq, hequal, he, rfl⟩
  · exact ⟨_, hkw.trans (ht.trans hr), .bare hkind hname hsemicolon⟩
  · obtain ⟨read, hread, hsegment⟩ := segment_of_expression he
    exact ⟨_, hkw.trans (ht.trans (heq.trans (hread.trans hr))),
      .initialized hkind hname hequal hsegment hsemicolon⟩

theorem expressionStatement_sound (h : expressionStatement n c = .ok s c') :
    Between ExpressionStatement s c c' := by
  obtain ⟨e, c₁, r, he, hr, hsemicolon, rfl⟩ := expressionStatement_eq_ok_iff.1 h
  obtain ⟨read, hread, hsegment⟩ := segment_of_expression he
  exact ⟨_, hread.trans hr, .intro hsegment hsemicolon⟩

theorem printStatement_sound (hkind : c.NextIs (.keyword .printKw))
    (h : printStatement n c = .ok s c') : Between (Simple inLoop) s c c' := by
  obtain ⟨kw, c₁, hkw, hkind⟩ := hkind.reads
  obtain ⟨e, c₂, r, he, hr, hsemicolon, rfl⟩ := (printStatement_eq_ok_iff hkw).1 h
  obtain ⟨read, hread, hsegment⟩ := segment_of_expression he
  exact ⟨_, hkw.trans (hread.trans hr), .print hkind hsegment hsemicolon⟩

theorem returnStatement_sound (hkind : c.NextIs (.keyword .returnKw))
    (h : returnStatement n c = .ok s c') : Between (Simple inLoop) s c c' := by
  obtain ⟨kw, c₁, hkw, hkind⟩ := hkind.reads
  obtain ⟨value, c₂, r, hvalue, hr, hsemicolon, rfl⟩ := (returnStatement_eq_ok_iff hkw).1 h
  obtain ⟨read, hread, hoptional⟩ := optional_of_omissible hvalue
  exact ⟨_, hkw.trans (hread.trans hr), .giveBack hkind hoptional hsemicolon⟩

theorem exitLoop_sound (hkind : c.NextIs (.keyword .breakKw))
    (h : jumpStatement inLoop .exitLoop c = .ok s c') : Between (Simple inLoop) s c c' := by
  obtain ⟨kw, c₁, hkw, hkind⟩ := hkind.reads
  obtain ⟨hloop, r, hr, hsemicolon, rfl⟩ := (jumpStatement_eq_ok_iff hkw).1 h
  exact ⟨_, hkw.trans hr, .exitLoop hkind hloop hsemicolon⟩

theorem nextIteration_sound (hkind : c.NextIs (.keyword .continueKw))
    (h : jumpStatement inLoop .nextIteration c = .ok s c') : Between (Simple inLoop) s c c' := by
  obtain ⟨kw, c₁, hkw, hkind⟩ := hkind.reads
  obtain ⟨hloop, r, hr, hsemicolon, rfl⟩ := (jumpStatement_eq_ok_iff hkw).1 h
  exact ⟨_, hkw.trans hr, .nextIteration hkind hloop hsemicolon⟩

theorem firstClause_sound {first : Option Stmt} (h : firstClause n c = .ok first c') :
    Between FirstClause first c c' := by
  rcases firstClause_eq_ok_iff.1 h with
    ⟨r, hr, hsemicolon, rfl⟩ | ⟨s, hnext, hs, rfl⟩ | ⟨s, -, -, hs, rfl⟩
  · exact ⟨_, hr, .absent hsemicolon⟩
  · obtain ⟨read, hread, hs⟩ := declaration_sound hnext hs
    exact ⟨read, hread, .declaration hs⟩
  · obtain ⟨read, hread, hs⟩ := expressionStatement_sound hs
    exact ⟨read, hread, .expression hs⟩

/-- Parameters behind the parameters `done`. -/
theorem parameters_sound {done params : List Param} (hdone : (done.map (·.name)).Nodup)
    (h : parameters n done c = .ok params c') :
    ∃ more, done.reverse ++ more = params ∧ more ≠ [] ∧ (params.map (·.name)).Nodup ∧
      params.length ≤ maxArity ∧ Between Parameters more c c' := by
  induction n generalizing done c with
  | zero => exact (unexpected_ne_ok h).elim
  | succ n ih =>
    obtain ⟨hroom, t, c₁, name, ht, hname, hnew, h⟩ := parameters_succ_iff.1 h
    have hnodup : ((⟨name, t.pos⟩ :: done : List Param).map (·.name)).Nodup :=
      List.nodup_cons.2 ⟨hnew, hdone⟩
    rcases h with ⟨-, rfl, rfl⟩ | ⟨comma, c₂, hcomma, hkind, h⟩
    · refine ⟨[⟨name, t.pos⟩], by simp, by simp, ?_, ?_, [t], ht, .last hname⟩
      · rw [List.map_reverse]
        exact (List.reverse_perm _).nodup_iff.2 hnodup
      · simpa using Nat.succ_le_of_lt hroom
    · obtain ⟨more, rfl, hne, hnames, hlength, read, hread, hmore⟩ := ih hnodup h
      cases more with
      | nil => exact absurd rfl hne
      | cons p more =>
        exact ⟨⟨name, t.pos⟩ :: p :: more, by simp, by simp, hnames, hlength, _,
          ht.trans (hcomma.trans hread), .more hname hkind hmore⟩

theorem parameterList_sound {params : List Param}
    (h : Omissible (.punct .rightParen) [] (parameters n []) c params c') :
    (params.map (·.name)).Nodup ∧ params.length ≤ maxArity ∧ Between Parameters params c c' := by
  rcases h with ⟨-, rfl, rfl⟩ | ⟨-, h⟩
  · exact ⟨List.nodup_nil, Nat.zero_le _, [], .refl c, .none⟩
  · obtain ⟨more, rfl, -, hnames, hlength, hmore⟩ := parameters_sound (by simp) h
    exact ⟨hnames, hlength, hmore⟩

/-! ## Statements -/

/-- A statement is derived between `c` and `c'`; if it is open, no `else` follows. -/
def StatementBetween (inLoop : Bool) (s : Stmt) (c c' : Cursor) : Prop :=
  ∃ isOpen, Between (Statement inLoop isOpen) s c c' ∧
    (isOpen = true → ¬ c'.NextIs (.keyword .elseKw))

/-- What the readers of statements promise if they succeed within the budget `n`. -/
structure StatementsSound (n : Nat) : Prop where
  item : ∀ {inLoop c c' s}, item n inLoop c = .ok s c' → Between (Item inLoop) s c c'
  functionDeclaration : ∀ {inLoop c c' s}, c.NextIs (.keyword .funKw) →
    functionDeclaration n c = .ok s c' → Between (Item inLoop) s c c'
  statement : ∀ {inLoop c c' s}, statement n inLoop c = .ok s c' →
    StatementBetween inLoop s c c'
  block : ∀ {inLoop c c' body}, block n inLoop c = .ok body c' →
    ∃ l c₁ c₂ r, c.Reads [l] c₁ ∧ l.kind = .punct .leftBrace ∧
      Between (Items inLoop) body c₁ c₂ ∧ c₂.Reads [r] c' ∧ r.kind = .punct .rightBrace
  items : ∀ {inLoop c c' done body}, items n inLoop done c = .ok body c' →
    ∃ more c₁ r, done.reverse ++ more = body ∧ Between (Items inLoop) more c c₁ ∧
      c₁.Reads [r] c' ∧ r.kind = .punct .rightBrace
  branchStatement : ∀ {inLoop c c' s}, c.NextIs (.keyword .ifKw) →
    branchStatement n inLoop c = .ok s c' → StatementBetween inLoop s c c'
  whileStatement : ∀ {inLoop c c' s}, c.NextIs (.keyword .whileKw) →
    whileStatement n c = .ok s c' → StatementBetween inLoop s c c'
  forStatement : ∀ {inLoop c c' s}, c.NextIs (.keyword .forKw) →
    forStatement n c = .ok s c' → StatementBetween inLoop s c c'

theorem statementsSound_zero : StatementsSound 0 where
  item h := (unexpected_ne_ok h).elim
  functionDeclaration _ h := (unexpected_ne_ok h).elim
  statement h := (unexpected_ne_ok h).elim
  block h := (unexpected_ne_ok h).elim
  items h := (unexpected_ne_ok h).elim
  branchStatement _ h := (unexpected_ne_ok h).elim
  whileStatement _ h := (unexpected_ne_ok h).elim
  forStatement _ h := (unexpected_ne_ok h).elim

theorem sound_item (ih : StatementsSound n) (h : item (n + 1) inLoop c = .ok s c') :
    Between (Item inLoop) s c c' := by
  rcases item_succ_iff.1 h with ⟨hnext, h⟩ | ⟨hnext, h⟩ | ⟨-, -, h⟩
  · obtain ⟨read, hread, hs⟩ := declaration_sound hnext h
    exact ⟨read, hread, .declaration hs⟩
  · exact ih.functionDeclaration hnext h
  · obtain ⟨isOpen, ⟨read, hread, hs⟩, -⟩ := ih.statement h
    exact ⟨read, hread, .statement hs⟩

theorem sound_functionDeclaration (ih : StatementsSound n) (hkind : c.NextIs (.keyword .funKw))
    (h : functionDeclaration (n + 1) c = .ok s c') : Between (Item inLoop) s c c' := by
  obtain ⟨kw, c₁, hkw, hkind⟩ := hkind.reads
  obtain ⟨t, c₂, name, l, c₃, params, c₄, r, c₅, body, ht, hname, hl, hopen, hparams, hr, hclose,
    hbody, rfl⟩ := (functionDeclaration_succ_iff hkw).1 h
  obtain ⟨hnames, hlength, list, hlist, hparams⟩ := parameterList_sound hparams
  obtain ⟨lbrace, c₆, c₇, rbrace, hlbrace, hbegin, ⟨read, hread, hitems⟩, hrbrace, hend⟩ :=
    ih.block hbody
  refine ⟨_, ?_, .function hkind hname hopen hparams hnames hlength hclose hbegin hitems hend⟩
  exact hkw.trans (ht.trans (hl.trans (hlist.trans (hr.trans (hlbrace.trans
    (hread.trans hrbrace))))))

/-- A statement without statements inside is not open. -/
theorem statementBetween_of_simple (h : Between (Simple inLoop) s c c') :
    StatementBetween inLoop s c c' := by
  obtain ⟨read, hread, hs⟩ := h
  exact ⟨false, ⟨read, hread, .simple hs⟩, fun hopen => nomatch hopen⟩

theorem sound_statement (ih : StatementsSound n) (h : statement (n + 1) inLoop c = .ok s c') :
    StatementBetween inLoop s c c' := by
  rcases statement_succ_iff.1 h with ⟨hnext, h⟩ | ⟨-, body, hbody, rfl⟩ | ⟨hnext, h⟩ | ⟨hnext, h⟩ |
    ⟨hnext, h⟩ | ⟨hnext, h⟩ | ⟨hnext, h⟩ | ⟨hnext, h⟩ | ⟨-, h⟩
  · exact statementBetween_of_simple (printStatement_sound hnext h)
  · obtain ⟨l, c₁, c₂, r, hl, hopen, ⟨read, hread, hitems⟩, hr, hclose⟩ := ih.block hbody
    exact ⟨false, ⟨_, hl.trans (hread.trans hr), .block hopen hitems hclose⟩,
      fun hopen => nomatch hopen⟩
  · exact ih.branchStatement hnext h
  · exact ih.whileStatement hnext h
  · exact ih.forStatement hnext h
  · exact statementBetween_of_simple (exitLoop_sound hnext h)
  · exact statementBetween_of_simple (nextIteration_sound hnext h)
  · exact statementBetween_of_simple (returnStatement_sound hnext h)
  · obtain ⟨read, hread, hs⟩ := expressionStatement_sound h
    exact statementBetween_of_simple ⟨read, hread, .expression hs⟩

theorem sound_block (ih : StatementsSound n) {body : List Stmt}
    (h : block (n + 1) inLoop c = .ok body c') :
    ∃ l c₁ c₂ r, c.Reads [l] c₁ ∧ l.kind = .punct .leftBrace ∧
      Between (Items inLoop) body c₁ c₂ ∧ c₂.Reads [r] c' ∧ r.kind = .punct .rightBrace := by
  obtain ⟨l, c₁, hl, hopen, h⟩ := block_succ_iff.1 h
  obtain ⟨more, c₂, r, rfl, hmore, hr, hclose⟩ := ih.items h
  exact ⟨l, c₁, c₂, r, hl, hopen, hmore, hr, hclose⟩

theorem sound_items (ih : StatementsSound n) {done body : List Stmt}
    (h : items (n + 1) inLoop done c = .ok body c') :
    ∃ more c₁ r, done.reverse ++ more = body ∧ Between (Items inLoop) more c c₁ ∧
      c₁.Reads [r] c' ∧ r.kind = .punct .rightBrace := by
  rcases items_succ_iff.1 h with ⟨r, hr, hclose, rfl⟩ | ⟨-, -, s, c₁, hs, h⟩
  · exact ⟨[], c, r, List.append_nil _, ⟨[], .refl c, .nil⟩, hr, hclose⟩
  · obtain ⟨first, hfirst, hs⟩ := ih.item hs
    obtain ⟨more, c₂, r, rfl, ⟨rest, hrest, hmore⟩, hr, hclose⟩ := ih.items h
    refine ⟨s :: more, c₂, r, by simp, ⟨_, hfirst.trans hrest, .cons hs hmore⟩, hr, hclose⟩

theorem sound_branchStatement (ih : StatementsSound n) (hkind : c.NextIs (.keyword .ifKw))
    (h : branchStatement (n + 1) inLoop c = .ok s c') : StatementBetween inLoop s c c' := by
  obtain ⟨kw, c₁, hkw, hkind⟩ := hkind.reads
  obtain ⟨l, c₂, condition, c₃, r, c₄, whenTrue, c₅, hl, hopen, hcondition, hr, hclose, htrue, h⟩ :=
    (branchStatement_succ_iff hkw).1 h
  obtain ⟨test, htest, hsegment⟩ := segment_of_expression hcondition
  obtain ⟨isOpen, ⟨read, hread, htrue⟩, hnoElse⟩ := ih.statement htrue
  have hhead := hkw.trans (hl.trans (htest.trans (hr.trans hread)))
  rcases h with ⟨hnext, rfl, rfl⟩ | ⟨els, c₆, whenFalse, hels, hkind', hfalse, rfl⟩
  · exact ⟨true, ⟨_, hhead, .branch hkind hopen hsegment hclose htrue⟩, fun _ => hnext⟩
  · obtain ⟨isOpen', ⟨after, hafter, hfalse⟩, hnoElse'⟩ := ih.statement hfalse
    -- the first branch has an `else` behind it, so it is not open
    obtain rfl : isOpen = false :=
      Bool.eq_false_iff.2 fun hisOpen => hnoElse hisOpen (hels.nextIs hkind')
    refine ⟨isOpen', ⟨_, ?_, .branches hkind hopen hsegment hclose htrue hkind' hfalse⟩, hnoElse'⟩
    exact hkw.trans (hl.trans (htest.trans (hr.trans (hread.trans (hels.trans hafter)))))

theorem sound_whileStatement (ih : StatementsSound n) (hkind : c.NextIs (.keyword .whileKw))
    (h : whileStatement (n + 1) c = .ok s c') : StatementBetween inLoop s c c' := by
  obtain ⟨kw, c₁, hkw, hkind⟩ := hkind.reads
  obtain ⟨l, c₂, condition, c₃, r, c₄, body, hl, hopen, hcondition, hr, hclose, hbody, rfl⟩ :=
    (whileStatement_succ_iff hkw).1 h
  obtain ⟨test, htest, hsegment⟩ := segment_of_expression hcondition
  obtain ⟨isOpen, ⟨read, hread, hbody⟩, hnoElse⟩ := ih.statement hbody
  exact ⟨isOpen, ⟨_, hkw.trans (hl.trans (htest.trans (hr.trans hread))),
    .whileLoop hkind hopen hsegment hclose hbody⟩, hnoElse⟩

theorem sound_forStatement (ih : StatementsSound n) (hkind : c.NextIs (.keyword .forKw))
    (h : forStatement (n + 1) c = .ok s c') : StatementBetween inLoop s c c' := by
  obtain ⟨kw, c₁, hkw, hkind⟩ := hkind.reads
  obtain ⟨l, c₂, first, c₃, condition, c₄, r, c₅, increment, c₆, r', c₇, body, hl, hopen, hfirst,
    hcondition, hr, hsemicolon, hincrement, hr', hclose, hbody, rfl⟩ :=
    (forStatement_succ_iff hkw).1 h
  obtain ⟨start, hstart, hfirst⟩ := firstClause_sound hfirst
  obtain ⟨test, htest, hcondition⟩ := condition_of_omissible hcondition
  obtain ⟨next, hnext, hincrement⟩ := optional_of_omissible hincrement
  obtain ⟨isOpen, ⟨read, hread, hbody⟩, hnoElse⟩ := ih.statement hbody
  refine ⟨isOpen, ⟨_, ?_, .forLoop hkind hopen hfirst hcondition hsemicolon hincrement hclose
    hbody⟩, hnoElse⟩
  exact hkw.trans (hl.trans (hstart.trans (htest.trans (hr.trans (hnext.trans
    (hr'.trans hread))))))

/-- **Readers of statements are sound**, whatever their budget. -/
theorem statementsSound (n : Nat) : StatementsSound n := by
  induction n with
  | zero => exact statementsSound_zero
  | succ n ih =>
    exact
      { item := sound_item ih
        functionDeclaration := sound_functionDeclaration ih
        statement := sound_statement ih
        block := sound_block ih
        items := sound_items ih
        branchStatement := sound_branchStatement ih
        whileStatement := sound_whileStatement ih
        forStatement := sound_forStatement ih }

/-- A program that is read is derived from all tokens ahead. -/
theorem program_sound {done program : List Stmt} (h : Grammar.program n done c = .ok program c') :
    ∃ more, done.reverse ++ more = program ∧ Items false more c.ahead ∧ c'.ahead = [] := by
  induction n generalizing done c with
  | zero => exact (unexpected_ne_ok h).elim
  | succ n ih =>
    rcases program_succ_iff.1 h with ⟨hend, rfl, rfl⟩ | ⟨-, s, c₁, hs, h⟩
    · exact ⟨[], List.append_nil _, hend ▸ .nil, hend⟩
    · obtain ⟨first, hfirst, hs⟩ := (statementsSound n).item hs
      obtain ⟨more, rfl, hmore, hend⟩ := ih h
      refine ⟨s :: more, by simp, ?_, hend⟩
      rw [hfirst.ahead]
      exact .cons hs hmore

end Grammar

end Script
