import Mathlib.Data.Fintype.EquivFin
import Script.Proofs.Grammar.Expression.Completion
import Script.Proofs.Grammar.Statement.Soundness

/-!
# Statements that are broken off

Where a reader of statements fails, the tokens it has read begin a statement, or a sign of
assignment among them is the first that is wrong. A part that is broken off is completed on its own,
what is still missing behind it is spelled out: signs, `nil` for an expression, `nil;` for a
statement, a new name for a parameter, and the brace that closes a block.

- `Grammar.StatementOf`, `Grammar.ItemOf`, `Grammar.BlockRest` and the like: tokens that are a
  statement, a declaration or statement, or what is left of a block.
- `Grammar.StatementsComplete.completes`, `Grammar.program_completes`: all readers of statements,
  and the reader of programs.
-/

namespace Script

namespace Grammar

open Script.Parser Script.Derivation

variable {n m room : Nat} {inLoop : Bool} {c c' : Cursor} {kw : Token} {L : List Token → Prop}
  {read : List Token}

/-- A sign to complete tokens with. -/
abbrev spareSign (sign : Punct) : Token := (TokenKind.punct sign).spare

theorem kind_spare (kind : TokenKind) : kind.spare.kind = kind := rfl

theorem kind_spareSign (sign : Punct) : (spareSign sign).kind = .punct sign := rfl

/-- An expression to complete tokens with. -/
abbrev spareNil : Token := (TokenKind.keyword .nilKw).spare

/-! ## Expressions inside statements -/

theorem phrase_zero_iff : Phrase 0 read ↔ ∃ e : Expr, e.Segment read := by
  refine exists_congr fun e => ?_
  rw [Expr.segment_iff]
  exact ⟨fun h => ⟨h.canonical, h.written⟩, fun h => ⟨Nat.zero_le _, h.1, h.2⟩⟩

theorem exists_segment_nil : ∃ e : Expr, e.Segment [spareNil] :=
  phrase_zero_iff.1 (phrase_nil (Nat.zero_le _))

/-- An expression that is a part of what is read. -/
theorem completes_expression_bind {β : Type} {f g : Expr → Parser β} (hn : 16 * room + 4 ≤ n)
    (hm : 16 * room + 4 ≤ m) (hL : ∀ {e : Expr} {read}, e.Segment read → Completable L read)
    (hf : ∀ (e : Expr) (c' : Cursor) (read : List Token) (room' : Nat), e.Segment read →
      room' < room → Completes room' (fun rest => L (read ++ rest)) (f e) (g e) c') :
    Completes room L (expression n >>= f) (expression m >>= g) c := by
  refine .bind (expression_settled hn hm) ((ExpressionsComplete.completes n m).expression hn hm)
    (fun read hread => ?_) fun e c' read room' hok hread hroom => ?_
  · obtain ⟨e, he⟩ := phrase_zero_iff.1 hread
    exact hL he
  · obtain ⟨read', hread', he⟩ := segment_of_expression hok
    obtain rfl := hread.read_unique hread'
    exact hf e c' read room' he hroom

/-- The same where there need not be an expression. -/
theorem completes_some_expression_bind {β : Type} {f g : Option Expr → Parser β}
    (hn : 16 * room + 4 ≤ n) (hm : 16 * room + 4 ≤ m)
    (hL : ∀ {e : Expr} {read}, e.Segment read → Completable L read)
    (hf : ∀ (e : Expr) (c' : Cursor) (read : List Token) (room' : Nat), e.Segment read →
      room' < room → Completes room' (fun rest => L (read ++ rest)) (f (some e)) (g (some e)) c') :
    Completes room L ((some <$> expression n) >>= f) ((some <$> expression m) >>= g) c := by
  rw [bind_map_left, bind_map_left]
  exact completes_expression_bind hn hm hL hf

/-- An expression in parentheses, with `spare` to complete what stands behind it. -/
theorem completes_parenthesized_bind {β : Type} {f g : Expr → Parser β} {start stop : Expectation}
    {spare : List Token} (hn : 16 * room + 4 ≤ n) (hm : 16 * room + 4 ≤ m)
    (hL : ∀ {l r : Token} {test : List Token}, l.kind = .punct .leftParen →
      (∃ e : Expr, e.Segment test) → r.kind = .punct .rightParen → L (l :: (test ++ r :: spare)))
    (hf : ∀ {e : Expr} {l r : Token} {test : List Token} (c' : Cursor) (room' : Nat),
      l.kind = .punct .leftParen → e.Segment test → r.kind = .punct .rightParen → room' < room →
      Completes room' (fun rest => L (l :: (test ++ r :: rest))) (f e) (g e) c') :
    Completes room L
      (do
        let _ ← expect .leftParen start
        let test ← expression n
        let _ ← expect .rightParen stop
        f test)
      (do
        let _ ← expect .leftParen start
        let test ← expression m
        let _ ← expect .rightParen stop
        g test) c := by
  refine .expect_bind ⟨_, hL (kind_spareSign .leftParen) exists_segment_nil
    (kind_spareSign .rightParen)⟩ fun l c₁ room₁ _ hl hroom₁ => ?_
  refine completes_expression_bind (by omega) (by omega)
    (fun he => ⟨_, hL hl ⟨_, he⟩ (kind_spareSign .rightParen)⟩) fun e c₂ test room₂ he hroom₂ => ?_
  exact .expect_bind ⟨_, hL hl ⟨e, he⟩ (kind_spareSign .rightParen)⟩
    fun r c₃ room₃ _ hr hroom₃ => hf c₃ room₃ hl he hr (by omega)

/-! ## Statements without statements inside -/

theorem declaration_completes (hkw : c.ahead.head? = some kw) (hkind : kw.kind = .keyword .varKw)
    (hn : 16 * room + 4 ≤ n) (hm : 16 * room + 4 ≤ m) :
    Completes room (fun read => ∃ s, Declaration s read) (declaration n) (declaration m) c := by
  unfold declaration
  refine .keyword_bind hkw fun c₁ room₁ hroom₁ => ?_
  refine .expectIdent_bind ⟨[(TokenKind.ident "").spare, spareSign .semicolon], _,
    .bare hkind rfl rfl⟩ fun t name c₂ room₂ _ hname hroom₂ => ?_
  refine .accept?_bind (Completes.expect_pure ⟨[spareSign .semicolon], _, .bare hkind hname rfl⟩)
    fun eq c₃ room₃ _ hequal hroom₃ => ?_
  have hended {e : Expr} {read : List Token} (he : e.Segment read) :
      ∃ s, Declaration s (kw :: t :: eq :: (read ++ [spareSign .semicolon])) :=
    ⟨_, .initialized hkind hname hequal he rfl⟩
  exact completes_some_expression_bind (by omega) (by omega)
    (fun he => ⟨[spareSign .semicolon], hended he⟩)
    fun e c₄ read room₄ he _ => .expect_pure ⟨[spareSign .semicolon], hended he⟩

theorem expressionStatement_completes (hn : 16 * room + 4 ≤ n) (hm : 16 * room + 4 ≤ m) :
    Completes room (fun read => ∃ s, ExpressionStatement s read) (expressionStatement n)
      (expressionStatement m) c := by
  have hended {e : Expr} {read : List Token} (he : e.Segment read) :
      ∃ s, ExpressionStatement s (read ++ [spareSign .semicolon]) := ⟨_, .intro he rfl⟩
  exact completes_expression_bind hn hm (fun he => ⟨[spareSign .semicolon], hended he⟩)
    fun e c₁ read room₁ he _ => .expect_pure ⟨[spareSign .semicolon], hended he⟩

theorem printStatement_completes (hkw : c.ahead.head? = some kw)
    (hkind : kw.kind = .keyword .printKw)
    (hn : 16 * room + 4 ≤ n) (hm : 16 * room + 4 ≤ m) :
    Completes room (fun read => ∃ s, Simple inLoop s read) (printStatement n) (printStatement m)
      c := by
  unfold printStatement
  have hended {e : Expr} {read : List Token} (he : e.Segment read) :
      ∃ s, Simple inLoop s (kw :: (read ++ [spareSign .semicolon])) := ⟨_, .print hkind he rfl⟩
  refine .keyword_bind hkw fun c₁ room₁ hroom₁ => ?_
  exact completes_expression_bind (by omega) (by omega)
    (fun he => ⟨[spareSign .semicolon], hended he⟩)
    fun e c₂ read room₂ he _ => .expect_pure ⟨[spareSign .semicolon], hended he⟩

theorem returnStatement_completes (hkw : c.ahead.head? = some kw)
    (hkind : kw.kind = .keyword .returnKw) (hn : 16 * room + 4 ≤ n) (hm : 16 * room + 4 ≤ m) :
    Completes room (fun read => ∃ s, Simple inLoop s read) (returnStatement n) (returnStatement m)
      c := by
  unfold returnStatement
  have hended {value : Option Expr} {read : List Token} (hvalue : Optional value read) :
      ∃ s, Simple inLoop s (kw :: (read ++ [spareSign .semicolon])) :=
    ⟨_, .giveBack hkind hvalue rfl⟩
  refine .keyword_bind hkw fun c₁ room₁ hroom₁ => .nextIs_bind fun bare => .ite ?_ ?_
  · exact Completes.expect_pure ⟨[spareSign .semicolon], hended .absent⟩
  · exact completes_some_expression_bind (by omega) (by omega)
      (fun he => ⟨[spareSign .semicolon], hended (.present he)⟩)
      fun e c₂ read room₂ he _ => .expect_pure ⟨[spareSign .semicolon], hended (.present he)⟩

/-- A jump outside a loop is refused at its keyword, where another statement could begin. -/
theorem jumpStatement_completes {jump : Position → Stmt} (hkw : c.ahead.head? = some kw)
    (hL : Completable L []) (hjump : inLoop = true → L [kw, spareSign .semicolon]) :
    Completes room L (jumpStatement inLoop jump) (jumpStatement inLoop jump) c := by
  cases inLoop with
  | false => exact .refuse (jumpStatement_outside hkw) rfl hL
  | true =>
    unfold jumpStatement
    refine .next?_bind ?_
    rw [hkw]
    exact .advance_bind hkw fun c₁ room₁ _ _ =>
      Completes.expect_pure ⟨[spareSign .semicolon], hjump rfl⟩

/-- The tokens `read` are parameters, at least one, that can stand behind the parameters `done`. -/
def ParametersBehind (done : List Param) (read : List Token) : Prop :=
  ∃ p params, Parameters (p :: params) read ∧ ((done ++ p :: params).map (·.name)).Nodup ∧
    (done ++ p :: params).length ≤ maxArity

/-- There is always one more name. -/
theorem exists_name_notMem (names : List String) : ∃ name, name ∉ names := by
  obtain ⟨name, hname⟩ := Infinite.exists_notMem_finset names.toFinset
  exact ⟨name, fun h => hname (List.mem_toFinset.2 h)⟩

theorem parametersBehind_single {done : List Param} {t : Token} {name : String}
    (hdone : (done.map (·.name)).Nodup) (hroom : done.length < maxArity)
    (ht : t.kind = .ident name) (hnew : name ∉ done.map (·.name)) :
    ParametersBehind done [t] := by
  refine ⟨⟨name, t.pos⟩, [], .last ht, ?_, ?_⟩
  · rw [List.map_append]
    exact List.nodup_middle.2 (List.nodup_cons.2 ⟨by simpa using hnew, by simpa using hdone⟩)
  · simpa using Nat.succ_le_of_lt hroom

theorem parametersBehind_more {done : List Param} {t comma : Token} {name : String}
    (ht : t.kind = .ident name) (hcomma : comma.kind = .punct .comma)
    (hmore : ParametersBehind (⟨name, t.pos⟩ :: done) read) :
    ParametersBehind done (t :: comma :: read) := by
  obtain ⟨p, params, hparams, hnames, hroom⟩ := hmore
  refine ⟨⟨name, t.pos⟩, p :: params, .more ht hcomma hparams, ?_, ?_⟩
  · rw [List.map_append, List.map_cons, List.nodup_middle, ← List.map_append]
    exact hnames
  · simp only [List.length_append, List.length_cons] at hroom ⊢
    omega

theorem parameters_completes (n m : Nat) {done : List Param} {room : Nat} {c : Cursor}
    (hdone : (done.map (·.name)).Nodup) (hn : 16 * room + 1 ≤ n) (hm : 16 * room + 1 ≤ m) :
    Completes room (ParametersBehind done) (parameters n done) (parameters m done) c := by
  induction n generalizing m done room c with
  | zero => omega
  | succ n ih =>
    obtain ⟨m, rfl⟩ : ∃ k, m = k + 1 := ⟨m - 1, by omega⟩
    by_cases hfull : done.length ≥ maxArity
    · rw [parameters, if_pos hfull]
      exact .fail_of_code rfl
    have hroom := Nat.lt_of_not_le hfull
    have hmissing : Completable (ParametersBehind done) [] := by
      obtain ⟨name, hnew⟩ := exists_name_notMem (done.map (·.name))
      exact completable_nil_of (parametersBehind_single hdone hroom
        (t := (TokenKind.ident name).spare) rfl hnew)
    by_cases htaken : ∃ name, c.NextIs (.ident name) ∧ done.any (·.name = name) = true
    · obtain ⟨name, hnext, htaken⟩ := htaken
      exact .refuse (parameters_taken hfull hnext htaken) rfl hmissing
    · rw [parameters, parameters, if_neg hfull, if_neg hfull]
      refine .here_bind (.expectIdent_bind hmissing fun t name c₁ room₁ ht hname hroom₁ => ?_)
      have hnew : ¬ done.any (·.name = name) = true := fun h => htaken ⟨name, ht.nextIs hname, h⟩
      have hnodup : ((⟨name, t.pos⟩ :: done : List Param).map (·.name)).Nodup :=
        List.nodup_cons.2 ⟨by simpa using hnew, hdone⟩
      rw [if_neg hnew, if_neg hnew, ht.pos_eq]
      refine .accept?_bind (.pure _) fun comma c₂ room₂ _ hcomma hroom₂ => ?_
      exact (ih m hnodup (by omega) (by omega)).mono fun rest hrest =>
        completable_of (parametersBehind_more hname hcomma hrest)

theorem firstClause_completes (hn : 16 * room + 4 ≤ n) (hm : 16 * room + 4 ≤ m) :
    Completes room (fun read => ∃ first, FirstClause first read) (firstClause n) (firstClause m)
      c := by
  have hother : Completes room (fun read => ∃ first, FirstClause first read)
      (some <$> expressionStatement n) (some <$> expressionStatement m) c := by
    refine ((expressionStatement_completes hn hm).mono fun read hread => ?_).map
    obtain ⟨s, hs⟩ := hread
    exact completable_of ⟨_, .expression hs⟩
  unfold firstClause
  refine .nextKind?_bind ?_
  cases hhead : c.ahead.head? with
  | none => exact hother
  | some t =>
    rw [Option.map_some]
    split
    · exact .advance_bind hhead fun _ _ _ _ => .pure none
    · rename_i hkind
      refine ((declaration_completes hhead (Option.some.inj hkind) hn hm).mono
        fun read hread => ?_).map
      obtain ⟨s, hs⟩ := hread
      exact completable_of ⟨_, .declaration hs⟩
    · exact hother

/-! ## Statements with statements inside -/

/-- The tokens `read` are a statement. -/
def StatementOf (inLoop : Bool) (read : List Token) : Prop :=
  ∃ isOpen s, Statement inLoop isOpen s read

/-- The tokens `read` are a declaration or a statement. -/
def ItemOf (inLoop : Bool) (read : List Token) : Prop := ∃ s, Item inLoop s read

/-- The tokens `read` are what is left of a block, its closing brace included. -/
def BlockRest (inLoop : Bool) (read : List Token) : Prop :=
  ∃ body inner r, Items inLoop body inner ∧ r.kind = .punct .rightBrace ∧ read = inner ++ [r]

/-- The tokens `read` are a block. -/
def BlockOf (inLoop : Bool) (read : List Token) : Prop :=
  ∃ l inner, l.kind = .punct .leftBrace ∧ BlockRest inLoop inner ∧ read = l :: inner

theorem statementOf_simple (h : ∃ s, Simple inLoop s read) : StatementOf inLoop read := by
  obtain ⟨s, hs⟩ := h
  exact ⟨false, s, .simple hs⟩

theorem statementOf_expression (h : ∃ s, ExpressionStatement s read) : StatementOf inLoop read := by
  obtain ⟨s, hs⟩ := h
  exact ⟨false, s, .simple (.expression hs)⟩

/-- A statement to complete tokens with. -/
theorem statementOf_nil : StatementOf inLoop [spareNil, spareSign .semicolon] := by
  obtain ⟨e, he⟩ := exists_segment_nil
  have hs : ExpressionStatement (.expression e) ([spareNil] ++ [spareSign .semicolon]) :=
    .intro he rfl
  exact statementOf_expression ⟨_, hs⟩

theorem itemOf_statement (h : StatementOf inLoop read) : ItemOf inLoop read := by
  obtain ⟨isOpen, s, hs⟩ := h
  exact ⟨s, .statement hs⟩

theorem statementOf_block (h : BlockOf inLoop read) : StatementOf inLoop read := by
  obtain ⟨l, _, hl, ⟨body, inner, r, hitems, hr, rfl⟩, rfl⟩ := h
  exact ⟨false, _, .block hl hitems hr⟩

theorem blockRest_nil : BlockRest inLoop [spareSign .rightBrace] :=
  ⟨[], [], spareSign .rightBrace, .nil, rfl, rfl⟩

/-- A block to complete tokens with. -/
theorem blockOf_nil : BlockOf inLoop [spareSign .leftBrace, spareSign .rightBrace] :=
  ⟨spareSign .leftBrace, _, rfl, blockRest_nil, rfl⟩

theorem blockRest_cons {rest : List Token} (h : ItemOf inLoop read)
    (hrest : BlockRest inLoop rest) : BlockRest inLoop (read ++ rest) := by
  obtain ⟨s, hs⟩ := h
  obtain ⟨body, inner, r, hitems, hr, rfl⟩ := hrest
  exact ⟨s :: body, read ++ inner, r, .cons hs hitems, hr, (List.append_assoc ..).symm⟩

/-- What the readers of statements have read where they fail can be completed, if both budgets allow
for the tokens ahead. -/
structure StatementsComplete (n m : Nat) : Prop where
  item (inLoop : Bool) {room : Nat} {c : Cursor} (hn : 16 * room + 6 ≤ n) (hm : 16 * room + 6 ≤ m) :
    Completes room (ItemOf inLoop) (item n inLoop) (item m inLoop) c
  functionDeclaration (inLoop : Bool) {kw : Token} {room : Nat} {c : Cursor}
    (hkw : c.ahead.head? = some kw) (hkind : kw.kind = .keyword .funKw) (hn : 16 * room + 1 ≤ n)
    (hm : 16 * room + 1 ≤ m) :
    Completes room (ItemOf inLoop) (functionDeclaration n) (functionDeclaration m) c
  statement (inLoop : Bool) {room : Nat} {c : Cursor} (hn : 16 * room + 5 ≤ n)
    (hm : 16 * room + 5 ≤ m) :
    Completes room (StatementOf inLoop) (statement n inLoop) (statement m inLoop) c
  block (inLoop : Bool) {room : Nat} {c : Cursor} (hn : 16 * room + 1 ≤ n)
    (hm : 16 * room + 1 ≤ m) : Completes room (BlockOf inLoop) (block n inLoop) (block m inLoop) c
  items (inLoop : Bool) {done : List Stmt} {room : Nat} {c : Cursor} (hn : 16 * room + 7 ≤ n)
    (hm : 16 * room + 7 ≤ m) :
    Completes room (BlockRest inLoop) (items n inLoop done) (items m inLoop done) c
  branchStatement (inLoop : Bool) {kw : Token} {room : Nat} {c : Cursor}
    (hkw : c.ahead.head? = some kw) (hkind : kw.kind = .keyword .ifKw) (hn : 16 * room + 1 ≤ n)
    (hm : 16 * room + 1 ≤ m) :
    Completes room (StatementOf inLoop) (branchStatement n inLoop) (branchStatement m inLoop) c
  whileStatement (inLoop : Bool) {kw : Token} {room : Nat} {c : Cursor}
    (hkw : c.ahead.head? = some kw) (hkind : kw.kind = .keyword .whileKw)
    (hn : 16 * room + 1 ≤ n) (hm : 16 * room + 1 ≤ m) :
    Completes room (StatementOf inLoop) (whileStatement n) (whileStatement m) c
  forStatement (inLoop : Bool) {kw : Token} {room : Nat} {c : Cursor}
    (hkw : c.ahead.head? = some kw) (hkind : kw.kind = .keyword .forKw)
    (hn : 16 * room + 1 ≤ n) (hm : 16 * room + 1 ≤ m) :
    Completes room (StatementOf inLoop) (forStatement n) (forStatement m) c

theorem StatementsComplete.item_succ (h : StatementsComplete n m) (inLoop : Bool)
    (hn : 16 * room + 6 ≤ n + 1) (hm : 16 * room + 6 ≤ m + 1) :
    Completes room (ItemOf inLoop) (Grammar.item (n + 1) inLoop) (Grammar.item (m + 1) inLoop)
      c := by
  have hother : Completes room (ItemOf inLoop) (Grammar.statement n inLoop)
      (Grammar.statement m inLoop) c :=
    (h.statement inLoop (by omega) (by omega)).mono fun read hread =>
      completable_of (itemOf_statement hread)
  rw [Grammar.item, Grammar.item]
  refine .nextKind?_bind ?_
  cases hhead : c.ahead.head? with
  | none => exact hother
  | some t =>
    rw [Option.map_some]
    split
    · rename_i hkind
      refine (declaration_completes hhead (Option.some.inj hkind) (by omega) (by omega)).mono
        fun read hread => ?_
      obtain ⟨s, hs⟩ := hread
      exact completable_of ⟨s, .declaration hs⟩
    · rename_i hkind
      exact h.functionDeclaration inLoop hhead (Option.some.inj hkind) (by omega) (by omega)
    · exact hother

/-- `L` holds of what has been read, with a parenthesis and a block behind it. -/
theorem StatementsComplete.functionRest (h : StatementsComplete n m) {pos : Position}
    {name : String} {params : List Param}
    (hL : ∀ {r : Token} {body : List Token}, r.kind = .punct .rightParen → BlockOf false body →
      L (r :: body))
    (hn : 16 * room + 1 ≤ n) (hm : 16 * room + 1 ≤ m) :
    Completes room L (Grammar.functionRest n pos name params)
      (Grammar.functionRest m pos name params) c := by
  have hs := StatementsSettled.settled n m
  unfold Grammar.functionRest
  refine .expect_bind ⟨_, hL (kind_spareSign .rightParen) blockOf_nil⟩
    fun r c₁ room₁ _ hr hroom₁ => ?_
  exact .bind (hs.block false (by omega) (by omega)) (h.block false (by omega) (by omega))
    (fun read hread => completable_of (hL hr hread)) fun _ _ _ _ _ _ _ => .pure _

theorem StatementsComplete.functionDeclaration_succ (h : StatementsComplete n m) (inLoop : Bool)
    (hkw : c.ahead.head? = some kw) (hkind : kw.kind = .keyword .funKw)
    (hn : 16 * room + 1 ≤ n + 1) (hm : 16 * room + 1 ≤ m + 1) :
    Completes room (ItemOf inLoop) (Grammar.functionDeclaration (n + 1))
      (Grammar.functionDeclaration (m + 1)) c := by
  have hfunction {t l r : Token} {name : String} {params : List Param} {list body : List Token}
      (hname : t.kind = .ident name) (hl : l.kind = .punct .leftParen)
      (hparams : Parameters params list) (hnames : (params.map (·.name)).Nodup)
      (hcount : params.length ≤ maxArity) (hr : r.kind = .punct .rightParen)
      (hbody : BlockOf false body) : ItemOf inLoop (kw :: t :: l :: (list ++ r :: body)) := by
    obtain ⟨lbrace, _, hlbrace, ⟨body, inner, rbrace, hitems, hrbrace, rfl⟩, rfl⟩ := hbody
    exact ⟨_, .function hkind hname hl hparams hnames hcount hr hlbrace hitems hrbrace⟩
  rw [Grammar.functionDeclaration, Grammar.functionDeclaration]
  refine .keyword_bind hkw fun c₁ room₁ hroom₁ => ?_
  refine .expectIdent_bind ⟨_, hfunction (kind_spare (.ident "")) (kind_spareSign .leftParen) .none
    .nil (Nat.zero_le _) (kind_spareSign .rightParen) blockOf_nil⟩
    fun t name c₂ room₂ _ hname hroom₂ => ?_
  refine .expect_bind ⟨_, hfunction hname (kind_spareSign .leftParen) .none .nil (Nat.zero_le _)
    (kind_spareSign .rightParen) blockOf_nil⟩
    fun l c₃ room₃ _ hl hroom₃ => .nextIs_bind fun bare => .ite ?_ ?_
  · exact h.functionRest (hfunction hname hl .none .nil (Nat.zero_le _)) (by omega) (by omega)
  · refine .bind (parameters_settled n m [] (by omega) (by omega))
      (parameters_completes n m .nil (by omega) (by omega)) (fun read hread => ?_)
      fun params c₄ read room₄ hok hread hroom₄ => ?_
    · obtain ⟨p, params, hparams, hnames, hcount⟩ := hread
      exact ⟨_, hfunction hname hl hparams hnames hcount (kind_spareSign .rightParen) blockOf_nil⟩
    · obtain ⟨more, rfl, -, hnames, hcount, read', hread', hparams⟩ :=
        parameters_sound (by simp) hok
      obtain rfl := hread.read_unique hread'
      exact h.functionRest (hfunction hname hl hparams hnames hcount) (by omega) (by omega)

theorem StatementsComplete.statement_succ (h : StatementsComplete n m) (inLoop : Bool)
    (hn : 16 * room + 5 ≤ n + 1) (hm : 16 * room + 5 ≤ m + 1) :
    Completes room (StatementOf inLoop) (Grammar.statement (n + 1) inLoop)
      (Grammar.statement (m + 1) inLoop) c := by
  have hother : Completes room (StatementOf inLoop) (expressionStatement n) (expressionStatement m)
      c :=
    (expressionStatement_completes (by omega) (by omega)).mono fun read hread =>
      completable_of (statementOf_expression hread)
  have hmissing : Completable (StatementOf inLoop) [] := completable_nil_of statementOf_nil
  rw [Grammar.statement, Grammar.statement]
  refine .nextKind?_bind ?_
  cases hkw : c.ahead.head? with
  | none => exact hother
  | some kw =>
    rw [Option.map_some]
    split <;> rename_i hkind
    · exact (printStatement_completes hkw (Option.some.inj hkind) (by omega) (by omega)).mono
        fun read hread => completable_of (statementOf_simple hread)
    · exact ((h.block inLoop (by omega) (by omega)).mono
        fun read hread => completable_of (statementOf_block hread)).map
    · exact h.branchStatement inLoop hkw (Option.some.inj hkind) (by omega) (by omega)
    · exact h.whileStatement inLoop hkw (Option.some.inj hkind) (by omega) (by omega)
    · exact h.forStatement inLoop hkw (Option.some.inj hkind) (by omega) (by omega)
    · exact jumpStatement_completes hkw hmissing fun hloop =>
        statementOf_simple ⟨_, .exitLoop (Option.some.inj hkind) hloop rfl⟩
    · exact jumpStatement_completes hkw hmissing fun hloop =>
        statementOf_simple ⟨_, .nextIteration (Option.some.inj hkind) hloop rfl⟩
    · exact (returnStatement_completes hkw (Option.some.inj hkind) (by omega) (by omega)).mono
        fun read hread => completable_of (statementOf_simple hread)
    · exact hother

theorem StatementsComplete.items_succ (h : StatementsComplete n m) (inLoop : Bool)
    {done : List Stmt} (hn : 16 * room + 7 ≤ n + 1) (hm : 16 * room + 7 ≤ m + 1) :
    Completes room (BlockRest inLoop) (Grammar.items (n + 1) inLoop done)
      (Grammar.items (m + 1) inLoop done) c := by
  have hs := StatementsSettled.settled n m
  rw [Grammar.items, Grammar.items]
  refine .nextKind?_bind ?_
  cases hhead : c.ahead.head? with
  | none => exact .refuse rfl rfl (completable_nil_of blockRest_nil)
  | some t =>
    rw [Option.map_some]
    split
    · rename_i hkind
      cases hkind
    · exact .advance_bind hhead fun _ _ _ _ => .pure _
    · refine .bind (hs.item inLoop (by omega) (by omega)) (h.item inLoop (by omega) (by omega))
        (fun read hread => ⟨_, blockRest_cons hread blockRest_nil⟩)
        fun st c₁ read room₁ hok hread hroom₁ => ?_
      obtain ⟨read', hread', hst⟩ := (statementsSound n).item hok
      obtain rfl := hread.read_unique hread'
      exact (h.items inLoop (by omega) (by omega)).mono fun rest hrest =>
        completable_of (blockRest_cons ⟨st, hst⟩ hrest)

theorem StatementsComplete.branchStatement_succ (h : StatementsComplete n m) (inLoop : Bool)
    (hkw : c.ahead.head? = some kw) (hkind : kw.kind = .keyword .ifKw)
    (hn : 16 * room + 1 ≤ n + 1) (hm : 16 * room + 1 ≤ m + 1) :
    Completes room (StatementOf inLoop) (Grammar.branchStatement (n + 1) inLoop)
      (Grammar.branchStatement (m + 1) inLoop) c := by
  have hs := StatementsSettled.settled n m
  have hbranch {l r : Token} {test read : List Token} (hl : l.kind = .punct .leftParen)
      (htest : ∃ e : Expr, e.Segment test) (hr : r.kind = .punct .rightParen)
      (hbody : StatementOf inLoop read) : StatementOf inLoop (kw :: l :: (test ++ r :: read)) := by
    obtain ⟨e, he⟩ := htest
    obtain ⟨isOpen, s, hs⟩ := hbody
    exact ⟨true, _, .branch hkind hl he hr hs⟩
  rw [Grammar.branchStatement, Grammar.branchStatement]
  refine .keyword_bind hkw fun c₁ room₁ hroom₁ => ?_
  refine completes_parenthesized_bind (by omega) (by omega)
    (fun hl htest hr => hbranch hl htest hr statementOf_nil)
    fun {e l r test} c₂ room₂ hl he hr hroom₂ => ?_
  refine .bind (hs.statement inLoop (by omega) (by omega))
    (h.statement inLoop (by omega) (by omega))
    (fun read hread => completable_of (hbranch hl ⟨e, he⟩ hr hread))
    fun whenTrue c₃ read room₃ hok hread hroom₃ => ?_
  obtain ⟨isOpen, ⟨read', hread', htrue⟩, hnoElse⟩ := (statementsSound n).statement hok
  obtain rfl := hread.read_unique hread'
  refine .accept?_bind (.pure _) fun els c₄ room₄ hels hkind' hroom₄ => ?_
  -- the first branch has an `else` behind it, so it is not open
  obtain rfl : isOpen = false :=
    Bool.eq_false_iff.2 fun hisOpen => hnoElse hisOpen (hels.nextIs hkind')
  refine .bind (hs.statement inLoop (by omega) (by omega))
    (h.statement inLoop (by omega) (by omega))
    (fun after hafter => ?_) fun _ _ _ _ _ _ _ => .pure _
  obtain ⟨isOpen', whenFalse, hfalse⟩ := hafter
  exact completable_of ⟨isOpen', _, .branches hkind hl he hr htrue hkind' hfalse⟩

theorem StatementsComplete.whileStatement_succ (h : StatementsComplete n m) (inLoop : Bool)
    (hkw : c.ahead.head? = some kw) (hkind : kw.kind = .keyword .whileKw)
    (hn : 16 * room + 1 ≤ n + 1) (hm : 16 * room + 1 ≤ m + 1) :
    Completes room (StatementOf inLoop) (Grammar.whileStatement (n + 1))
      (Grammar.whileStatement (m + 1)) c := by
  have hs := StatementsSettled.settled n m
  have hloop {l r : Token} {test read : List Token} (hl : l.kind = .punct .leftParen)
      (htest : ∃ e : Expr, e.Segment test) (hr : r.kind = .punct .rightParen)
      (hbody : StatementOf true read) : StatementOf inLoop (kw :: l :: (test ++ r :: read)) := by
    obtain ⟨e, he⟩ := htest
    obtain ⟨isOpen, s, hs⟩ := hbody
    exact ⟨isOpen, _, .whileLoop hkind hl he hr hs⟩
  rw [Grammar.whileStatement, Grammar.whileStatement]
  refine .keyword_bind hkw fun c₁ room₁ hroom₁ => ?_
  refine completes_parenthesized_bind (by omega) (by omega)
    (fun hl htest hr => hloop hl htest hr statementOf_nil)
    fun {e l r test} c₂ room₂ hl he hr hroom₂ => ?_
  exact .bind (hs.statement true (by omega) (by omega)) (h.statement true (by omega) (by omega))
    (fun read hread => completable_of (hloop hl ⟨e, he⟩ hr hread)) fun _ _ _ _ _ _ _ => .pure _

/-- `L` holds of what has been read, with a parenthesis and a statement behind it. -/
theorem StatementsComplete.forBody (h : StatementsComplete n m) {pos : Position}
    {first : Option Stmt} {condition : Expr} {increment : Option Expr}
    (hL : ∀ {r : Token} {body : List Token}, r.kind = .punct .rightParen → StatementOf true body →
      L (r :: body))
    (hn : 16 * room + 1 ≤ n) (hm : 16 * room + 1 ≤ m) :
    Completes room L (Grammar.forBody n pos first condition increment)
      (Grammar.forBody m pos first condition increment) c := by
  have hs := StatementsSettled.settled n m
  unfold Grammar.forBody
  refine .expect_bind ⟨_, hL (kind_spareSign .rightParen) statementOf_nil⟩
    fun r c₁ room₁ _ hr hroom₁ => ?_
  exact .bind (hs.statement true (by omega) (by omega)) (h.statement true (by omega) (by omega))
    (fun read hread => completable_of (hL hr hread)) fun _ _ _ _ _ _ _ => .pure _

/-- `L` holds of what has been read, with a semicolon, perhaps an expression, a parenthesis and a
statement behind it. -/
theorem StatementsComplete.forIncrement (h : StatementsComplete n m) {pos : Position}
    {first : Option Stmt} {condition : Expr}
    (hL : ∀ {semicolon r : Token} {increment : Option Expr} {next body : List Token},
      semicolon.kind = .punct .semicolon → Optional increment next → r.kind = .punct .rightParen →
      StatementOf true body → L (semicolon :: (next ++ r :: body)))
    (hn : 16 * room + 1 ≤ n) (hm : 16 * room + 1 ≤ m) :
    Completes room L (Grammar.forIncrement n pos first condition)
      (Grammar.forIncrement m pos first condition) c := by
  unfold Grammar.forIncrement
  refine .expect_bind ⟨_, hL (kind_spareSign .semicolon) .absent (kind_spareSign .rightParen)
    statementOf_nil⟩ fun semicolon c₁ room₁ _ hsemicolon hroom₁ =>
      .nextIs_bind fun bare => .ite ?_ ?_
  · exact h.forBody (hL hsemicolon .absent) (by omega) (by omega)
  · exact completes_some_expression_bind (by omega) (by omega)
      (fun he => ⟨_, hL hsemicolon (.present he) (kind_spareSign .rightParen) statementOf_nil⟩)
      fun e c₂ next room₂ he hroom₂ =>
        h.forBody (hL hsemicolon (.present he)) (by omega) (by omega)

theorem StatementsComplete.forStatement_succ (h : StatementsComplete n m) (inLoop : Bool)
    (hkw : c.ahead.head? = some kw) (hkind : kw.kind = .keyword .forKw)
    (hn : 16 * room + 1 ≤ n + 1) (hm : 16 * room + 1 ≤ m + 1) :
    Completes room (StatementOf inLoop) (Grammar.forStatement (n + 1))
      (Grammar.forStatement (m + 1)) c := by
  have hloop {l semicolon r : Token} {first : Option Stmt} {condition : Expr}
      {increment : Option Expr} {start test next read : List Token}
      (hl : l.kind = .punct .leftParen) (hfirst : FirstClause first start)
      (hcondition : Condition kw.pos condition test)
      (hsemicolon : semicolon.kind = .punct .semicolon)
      (hincrement : Optional increment next) (hr : r.kind = .punct .rightParen)
      (hbody : StatementOf true read) : StatementOf inLoop
        (kw :: l :: (start ++ (test ++ semicolon :: (next ++ r :: read)))) := by
    obtain ⟨isOpen, s, hs⟩ := hbody
    exact ⟨isOpen, _, .forLoop hkind hl hfirst hcondition hsemicolon hincrement hr hs⟩
  rw [Grammar.forStatement, Grammar.forStatement]
  refine .keyword_bind hkw fun c₁ room₁ hroom₁ => ?_
  refine .expect_bind ⟨_, hloop (kind_spareSign .leftParen)
    (.absent (kind_spareSign .semicolon)) .always (kind_spareSign .semicolon)
    .absent (kind_spareSign .rightParen) statementOf_nil⟩ fun l c₂ room₂ _ hl hroom₂ => ?_
  refine .bind (firstClause_settled (by omega) (by omega))
    (firstClause_completes (by omega) (by omega)) (fun start hstart' => ?_)
    fun first c₃ start room₃ hok hread hroom₃ => .nextIs_bind fun unconditional => ?_
  · obtain ⟨first, hfirst⟩ := hstart'
    exact ⟨_, hloop hl hfirst .always (kind_spareSign .semicolon) .absent
      (kind_spareSign .rightParen) statementOf_nil⟩
  · obtain ⟨start', hread', hfirst⟩ := firstClause_sound hok
    obtain rfl := hread.read_unique hread'
    refine .ite ?_ ?_
    · exact h.forIncrement (hloop hl hfirst .always) (by omega) (by omega)
    · exact completes_expression_bind (by omega) (by omega)
        (fun he => ⟨_, hloop hl hfirst (.given he) (kind_spareSign .semicolon) .absent
          (kind_spareSign .rightParen) statementOf_nil⟩)
        fun e c₄ test room₄ he hroom₄ =>
          h.forIncrement (hloop hl hfirst (.given he)) (by omega) (by omega)

/-- **What readers of statements have read where they fail begins a statement**, or a sign of
assignment among it is the first token that is wrong. -/
theorem StatementsComplete.completes (n m : Nat) : StatementsComplete n m := by
  induction n generalizing m with
  | zero =>
    refine { item := ?_, functionDeclaration := ?_, statement := ?_, block := ?_, items := ?_,
             branchStatement := ?_, whileStatement := ?_, forStatement := ?_ }
    all_goals intros; omega
  | succ n ih =>
    cases m with
    | zero =>
      refine { item := ?_, functionDeclaration := ?_, statement := ?_, block := ?_, items := ?_,
               branchStatement := ?_, whileStatement := ?_, forStatement := ?_ }
      all_goals intros; omega
    | succ m =>
      have ih := ih m
      exact
        { item := fun inLoop => ih.item_succ inLoop
          functionDeclaration := fun inLoop => ih.functionDeclaration_succ inLoop
          statement := fun inLoop => ih.statement_succ inLoop
          block := fun inLoop {room c} hn hm => by
            rw [Grammar.block, Grammar.block]
            refine .expect_bind ⟨[spareSign .leftBrace, spareSign .rightBrace],
              spareSign .leftBrace, _, rfl, blockRest_nil, rfl⟩ fun l c₁ room₁ _ hl hroom₁ => ?_
            exact (ih.items inLoop (by omega) (by omega)).mono fun rest hrest =>
              completable_of ⟨l, rest, hl, hrest, rfl⟩
          items := fun inLoop => ih.items_succ inLoop
          branchStatement := fun inLoop => ih.branchStatement_succ inLoop
          whileStatement := fun inLoop => ih.whileStatement_succ inLoop
          forStatement := fun inLoop => ih.forStatement_succ inLoop }

/-- The tokens `read` are a program. -/
def ProgramOf (read : List Token) : Prop := ∃ ss, Items false ss read

theorem program_completes (n m : Nat) {done : List Stmt} {room : Nat} {c : Cursor}
    (hn : 16 * room + 7 ≤ n) (hm : 16 * room + 7 ≤ m) :
    Completes room ProgramOf (program n done) (program m done) c := by
  induction n generalizing m done room c with
  | zero => omega
  | succ n ih =>
    obtain ⟨m, rfl⟩ : ∃ k, m = k + 1 := ⟨m - 1, by omega⟩
    rw [program, program]
    refine .next?_bind ?_
    cases c.ahead.head? with
    | none => exact .pure _
    | some t =>
      have hs := StatementsSettled.settled n m
      refine .bind (hs.item false (by omega) (by omega))
        ((StatementsComplete.completes n m).item false (by omega) (by omega)) (fun read hread => ?_)
        fun st c₁ read room₁ hok hread hroom₁ => ?_
      · obtain ⟨s, hs⟩ := hread
        exact ⟨[], [s], .cons hs .nil⟩
      · obtain ⟨read', hread', hst⟩ := (statementsSound n).item hok
        obtain rfl := hread.read_unique hread'
        refine (ih m (by omega) (by omega)).mono fun rest hrest => ?_
        obtain ⟨ss, hss⟩ := hrest
        exact completable_of ⟨st :: ss, .cons hst hss⟩

end Grammar

end Script
