import Script.Proofs.Grammar.Statement.Soundness

/-!
# Every statement of the grammar is read

Tokens that the grammar derives a statement from are read as this statement: the next token always
tells which rule was used. Only behind an open statement this needs a condition, that no `else`
follows; the grammar puts an `else` behind a statement only where that statement is not open.

- `Grammar.starts`: the tokens with which statements and declarations begin.
- `Grammar.statement_complete`, `Grammar.item_complete`, `Grammar.items_complete`: what is derived
  is read, within a budget of four units for each token.
-/

namespace Script

namespace Grammar

open Script.Parser Script.Derivation

variable {n : Nat} {inLoop isOpen : Bool} {c c₁ c' : Cursor} {s : Stmt} {e : Expr}
  {read : List Token} {t r : Token} {kind : TokenKind}

/-! ## First tokens -/

/-- Whether a token of this kind can begin a declaration or a statement. -/
def starts (kind : TokenKind) : Bool :=
  leads kind || kind.opens || kind == .keyword .varKw || kind == .keyword .funKw

theorem leads_eq_false_of_opens (h : kind.opens = true) : leads kind = false := by
  cases kind with
  | keyword word => cases word <;> first | rfl | cases h
  | punct sign => cases sign <;> first | rfl | cases h
  | _ => rfl

theorem segment_head (h : e.Segment read) : ∃ t rest, read = t :: rest ∧ t.kind.opens = true :=
  (Expr.segment_iff.1 h).2.head

theorem expressionStatement_head (h : ExpressionStatement s read) :
    ∃ t rest, read = t :: rest ∧ t.kind.opens = true := by
  obtain ⟨hsegment, -⟩ := h
  obtain ⟨t, rest, rfl, hopens⟩ := segment_head hsegment
  exact ⟨t, _, rfl, hopens⟩

/-- A statement begins with its keyword or brace, or with an expression. -/
theorem statement_head (h : Statement inLoop isOpen s read) :
    ∃ t rest, read = t :: rest ∧ (leads t.kind || t.kind.opens) = true := by
  cases h with
  | simple h =>
    cases h with
    | expression h =>
      obtain ⟨t, rest, rfl, hopens⟩ := expressionStatement_head h
      exact ⟨t, rest, rfl, by rw [hopens, Bool.or_true]⟩
    | print hkw => exact ⟨_, _, rfl, by rw [hkw]; rfl⟩
    | giveBack hkw => exact ⟨_, _, rfl, by rw [hkw]; rfl⟩
    | exitLoop hkw => exact ⟨_, _, rfl, by rw [hkw]; rfl⟩
    | nextIteration hkw => exact ⟨_, _, rfl, by rw [hkw]; rfl⟩
  | block hl => exact ⟨_, _, rfl, by rw [hl]; rfl⟩
  | branch hkw => exact ⟨_, _, rfl, by rw [hkw]; rfl⟩
  | branches hkw => exact ⟨_, _, rfl, by rw [hkw]; rfl⟩
  | whileLoop hkw => exact ⟨_, _, rfl, by rw [hkw]; rfl⟩
  | forLoop hkw => exact ⟨_, _, rfl, by rw [hkw]; rfl⟩

theorem item_head (h : Item inLoop s read) :
    ∃ t rest, read = t :: rest ∧ starts t.kind = true := by
  cases h with
  | declaration h =>
    cases h with
    | bare hkw => exact ⟨_, _, rfl, by rw [hkw]; rfl⟩
    | initialized hkw => exact ⟨_, _, rfl, by rw [hkw]; rfl⟩
  | function hkw => exact ⟨_, _, rfl, by rw [hkw]; rfl⟩
  | statement h =>
    obtain ⟨t, rest, rfl, hhead⟩ := statement_head h
    exact ⟨t, rest, rfl, by rw [starts, hhead]; rfl⟩

/-- In front of a declaration or a statement stands none of the other tokens. -/
theorem not_nextIs_of_item (h : Item inLoop s read) (hread : c.Reads read c')
    (hkind : starts kind = false) : ¬ c.NextIs kind := by
  obtain ⟨t, rest, rfl, hstarts⟩ := item_head h
  obtain ⟨c₁, ht, -⟩ := hread.cons
  refine (ht.nextIs rfl).ne ?_
  rintro rfl
  exact Bool.false_ne_true (hkind.symm.trans hstarts)

theorem not_nextIs_of_statement (h : Statement inLoop isOpen s read) (hread : c.Reads read c')
    (hkind : (leads kind || kind.opens) = false) : ¬ c.NextIs kind := by
  obtain ⟨t, rest, rfl, hhead⟩ := statement_head h
  obtain ⟨c₁, ht, -⟩ := hread.cons
  refine (ht.nextIs rfl).ne ?_
  rintro rfl
  exact Bool.false_ne_true (hkind.symm.trans hhead)

/-- Where no `else` follows a list of declarations and statements, none stands in front of it. -/
theorem noElse_of_items {ss : List Stmt} (h : Items inLoop ss read) (hread : c.Reads read c')
    (hnext : ¬ c'.NextIs (.keyword .elseKw)) : ¬ c.NextIs (.keyword .elseKw) := by
  cases h with
  | nil =>
    obtain rfl := Cursor.reads_nil_iff.1 hread
    exact hnext
  | cons hs _ =>
    obtain ⟨c₁, hread, -⟩ := hread.append
    exact not_nextIs_of_item hs hread rfl

/-! ## Parts -/

theorem expression_complete (h : e.Segment read) (hread : c.Reads read c')
    (hbudget : 4 * read.length ≤ n) (hends : c'.Ends) : expression n c = .ok e c' := by
  obtain ⟨hcanonical, hwritten⟩ := Expr.segment_iff.1 h
  exact (complete hcanonical hwritten).whole hread hbudget hends

/-- A condition is read between its parentheses. -/
theorem parenthesized_complete {l : Token} {rest : List Token} (h : e.Segment read)
    (hclose : r.kind = .punct .rightParen) (hread : c.Reads (l :: (read ++ r :: rest)) c')
    (hbudget : 4 * read.length ≤ n) :
    ∃ c₁ c₂ c₃, c.Reads [l] c₁ ∧ expression n c₁ = .ok e c₂ ∧ c₂.Reads [r] c₃ ∧
      c₃.Reads rest c' := by
  obtain ⟨c₁, hl, hread⟩ := hread.cons
  obtain ⟨c₂, hinner, hread⟩ := hread.append
  obtain ⟨c₃, hr, hrest⟩ := hread.cons
  have hends : c₂.Ends := Cursor.ends_of_nextIs (hr.nextIs hclose) rfl
  exact ⟨c₁, c₂, c₃, hl, expression_complete h hinner hbudget hends, hr, hrest⟩

theorem not_nextIs_of_segment (h : e.Segment read) (hread : c.Reads read c')
    (hkind : kind.opens = false) : ¬ c.NextIs kind :=
  Cursor.not_nextIs_of_written (Expr.segment_iff.1 h).2 hread hkind

theorem optional_complete {value : Option Expr} (h : Optional value read)
    (hread : c.Reads read c') (hbudget : 4 * read.length ≤ n) (hnext : c'.NextIs kind)
    (hopens : kind.opens = false) (hcontinues : kind.continues = false) :
    Omissible kind none (some <$> expression n) c value c' := by
  cases h with
  | absent =>
    obtain rfl := Cursor.reads_nil_iff.1 hread
    exact .inl ⟨hnext, rfl, rfl⟩
  | @present e _ he =>
    have hok := expression_complete he hread hbudget (Cursor.ends_of_nextIs hnext hcontinues)
    exact .inr ⟨not_nextIs_of_segment he hread hopens, map_eq_ok_iff.2 ⟨e, hok, rfl⟩⟩

theorem condition_complete {pos : Position} (h : Condition pos e read) (hread : c.Reads read c')
    (hbudget : 4 * read.length ≤ n) (hnext : c'.NextIs kind) (hopens : kind.opens = false)
    (hcontinues : kind.continues = false) :
    Omissible kind (.literal (.bool true) pos) (expression n) c e c' := by
  cases h with
  | always =>
    obtain rfl := Cursor.reads_nil_iff.1 hread
    exact .inl ⟨hnext, rfl, rfl⟩
  | given he =>
    have hok := expression_complete he hread hbudget (Cursor.ends_of_nextIs hnext hcontinues)
    exact .inr ⟨not_nextIs_of_segment he hread hopens, hok⟩

theorem declaration_complete (h : Declaration s read) (hread : c.Reads read c')
    (hbudget : 4 * read.length ≤ n + 4) :
    c.NextIs (.keyword .varKw) ∧ declaration n c = .ok s c' := by
  cases h with
  | bare hkind hname hsemicolon =>
    obtain ⟨c₁, hkw, hread⟩ := hread.cons
    obtain ⟨c₂, ht, hr⟩ := hread.cons
    refine ⟨hkw.nextIs hkind, (declaration_eq_ok_iff hkw).2 ?_⟩
    exact ⟨_, c₂, _, none, c₂, _, ht, hname,
      .inl ⟨(hr.nextIs hsemicolon).ne (by decide), rfl, rfl⟩, hr, hsemicolon, rfl⟩
  | @initialized _ _ _ _ _ e _ hkind hname hequal he hsemicolon =>
    simp only [List.length_cons, List.length_append, List.length_nil] at hbudget
    obtain ⟨c₁, hkw, hread⟩ := hread.cons
    obtain ⟨c₂, ht, hread⟩ := hread.cons
    obtain ⟨c₃, heq, hread⟩ := hread.cons
    obtain ⟨c₄, hread, hr⟩ := hread.append
    have hends : c₄.Ends := Cursor.ends_of_nextIs (hr.nextIs hsemicolon) rfl
    have hok := expression_complete he hread (n := n) (by omega) hends
    refine ⟨hkw.nextIs hkind, (declaration_eq_ok_iff hkw).2 ?_⟩
    exact ⟨_, c₂, _, some e, c₄, _, ht, hname, .inr ⟨_, c₃, e, heq, hequal, hok, rfl⟩, hr,
      hsemicolon, rfl⟩

theorem expressionStatement_complete (h : ExpressionStatement s read) (hread : c.Reads read c')
    (hbudget : 4 * read.length ≤ n + 4) : expressionStatement n c = .ok s c' := by
  obtain ⟨he, hsemicolon⟩ := h
  simp only [List.length_append, List.length_cons, List.length_nil] at hbudget
  obtain ⟨c₁, hread, hr⟩ := hread.append
  have hends : c₁.Ends := Cursor.ends_of_nextIs (hr.nextIs hsemicolon) rfl
  have hok := expression_complete he hread (n := n) (by omega) hends
  exact expressionStatement_eq_ok_iff.2 ⟨_, c₁, _, hok, hr, hsemicolon, rfl⟩

theorem firstClause_complete {first : Option Stmt} (h : FirstClause first read)
    (hread : c.Reads read c') (hbudget : 4 * read.length ≤ n + 4) :
    firstClause n c = .ok first c' := by
  cases h with
  | absent hsemicolon => exact firstClause_eq_ok_iff.2 (.inl ⟨_, hread, hsemicolon, rfl⟩)
  | declaration hs =>
    obtain ⟨hnext, hok⟩ := declaration_complete hs hread hbudget
    exact firstClause_eq_ok_iff.2 (.inr (.inl ⟨_, hnext, hok, rfl⟩))
  | expression hs =>
    have hok := expressionStatement_complete hs hread hbudget
    have hfirst : Statement false false _ read := .simple (.expression hs)
    refine firstClause_eq_ok_iff.2 (.inr (.inr ⟨_, ?_, ?_, hok, rfl⟩))
    · exact not_nextIs_of_statement hfirst hread rfl
    · exact not_nextIs_of_statement hfirst hread rfl

theorem parameters_complete {done params : List Param} (h : Parameters params read)
    (hne : params ≠ []) (hread : c.Reads read c') (hbudget : read.length ≤ n)
    (hroom : done.length + params.length ≤ maxArity)
    (hnames : ((done.reverse ++ params).map (·.name)).Nodup)
    (hclose : c'.NextIs (.punct .rightParen)) :
    parameters n done c = .ok (done.reverse ++ params) c' := by
  induction params generalizing read n done c with
  | nil => exact absurd rfl hne
  | cons p params ih =>
    have hroom' : done.length < maxArity := by
      rw [List.length_cons] at hroom
      omega
    have hnew : p.name ∉ done.map (·.name) := by
      rw [List.map_append, List.map_cons, List.map_reverse] at hnames
      have hdisjoint := (List.nodup_append.1 hnames).2.2
      intro hmem
      exact hdisjoint _ (List.mem_reverse.2 hmem) _ List.mem_cons_self rfl
    cases h with
    | last hname =>
      obtain ⟨k, rfl⟩ : ∃ k, n = k + 1 := ⟨n - 1, by simp at hbudget; omega⟩
      exact parameters_succ_iff.2 ⟨hroom', _, c', _, hread, hname, hnew,
        .inl ⟨hclose.ne (by decide), by simp, rfl⟩⟩
    | @more t comma name p params read hname hcomma hparams =>
      simp only [List.length_cons] at hbudget hroom
      obtain ⟨k, rfl⟩ : ∃ k, n = k + 1 := ⟨n - 1, by omega⟩
      obtain ⟨c₁, ht, hread⟩ := hread.cons
      obtain ⟨c₂, hcomma', hread⟩ := hread.cons
      have hroom₁ :
          (⟨name, t.pos⟩ :: done : List Param).length + (p :: params).length ≤ maxArity := by
        simp only [List.length_cons]
        omega
      have hrest := ih hparams (List.cons_ne_nil _ _) hread (n := k) (by omega) hroom₁
        (by simpa using hnames)
      rw [List.reverse_cons, List.append_assoc] at hrest
      exact parameters_succ_iff.2
        ⟨hroom', t, c₁, name, ht, hname, hnew, .inr ⟨comma, c₂, hcomma', hcomma, hrest⟩⟩

theorem parameterList_complete {params : List Param} (h : Parameters params read)
    (hread : c.Reads read c') (hbudget : read.length ≤ n) (hlength : params.length ≤ maxArity)
    (hnames : (params.map (·.name)).Nodup) (hclose : c'.NextIs (.punct .rightParen)) :
    Omissible (.punct .rightParen) [] (parameters n []) c params c' := by
  cases params with
  | nil =>
    cases h
    obtain rfl := Cursor.reads_nil_iff.1 hread
    exact .inl ⟨hclose, rfl, rfl⟩
  | cons p params =>
    have hopen : ¬ c.NextIs (.punct .rightParen) := by
      cases h with
      | last hname => exact (hread.nextIs hname).ne (fun h => nomatch h)
      | more hname _ _ =>
        obtain ⟨c₁, ht, -⟩ := hread.cons
        exact (ht.nextIs hname).ne (fun h => nomatch h)
    have hroom : ([] : List Param).length + (p :: params).length ≤ maxArity := by
      rwa [List.length_nil, Nat.zero_add]
    have hdone :=
      parameters_complete h (List.cons_ne_nil _ _) hread hbudget hroom hnames hclose
    exact .inr ⟨hopen, hdone⟩

/-! ## Statements -/

theorem simple_complete (h : Simple inLoop s read) (hread : c.Reads read c')
    (hbudget : 4 * read.length ≤ n + 1) : statement n inLoop c = .ok s c' := by
  obtain ⟨k, rfl⟩ : ∃ k, n = k + 1 := by
    obtain ⟨t, rest, rfl, -⟩ := statement_head (.simple h)
    exact ⟨n - 1, by simp at hbudget; omega⟩
  refine statement_succ_iff.2 ?_
  cases h with
  | expression hs =>
    obtain ⟨t, rest, rfl, hopens⟩ := expressionStatement_head hs
    have hok := expressionStatement_complete hs hread (n := k) (by omega)
    refine .inr (.inr (.inr (.inr (.inr (.inr (.inr (.inr ⟨fun u hu => ?_, hok⟩)))))))
    obtain ⟨c₁, ht, -⟩ := hread.cons
    obtain rfl := Option.some.inj (ht.head?.symm.trans hu)
    exact leads_eq_false_of_opens hopens
  | print hkind he hsemicolon =>
    simp only [List.length_cons, List.length_append, List.length_nil] at hbudget
    obtain ⟨c₁, hkw, hread⟩ := hread.cons
    obtain ⟨c₂, hread, hr⟩ := hread.append
    have hends : c₂.Ends := Cursor.ends_of_nextIs (hr.nextIs hsemicolon) rfl
    have hok := expression_complete he hread (n := k) (by omega) hends
    exact .inl ⟨hkw.nextIs hkind,
      (printStatement_eq_ok_iff hkw).2 ⟨_, c₂, _, hok, hr, hsemicolon, rfl⟩⟩
  | giveBack hkind hvalue hsemicolon =>
    simp only [List.length_cons, List.length_append, List.length_nil] at hbudget
    obtain ⟨c₁, hkw, hread⟩ := hread.cons
    obtain ⟨c₂, hread, hr⟩ := hread.append
    have hok := optional_complete hvalue hread (n := k) (by omega) (hr.nextIs hsemicolon) rfl rfl
    exact .inr (.inr (.inr (.inr (.inr (.inr (.inr (.inl ⟨hkw.nextIs hkind,
      (returnStatement_eq_ok_iff hkw).2 ⟨_, c₂, _, hok, hr, hsemicolon, rfl⟩⟩)))))))
  | exitLoop hkind hloop hsemicolon =>
    obtain ⟨c₁, hkw, hr⟩ := hread.cons
    exact .inr (.inr (.inr (.inr (.inr (.inl ⟨hkw.nextIs hkind,
      (jumpStatement_eq_ok_iff hkw).2 ⟨hloop, _, hr, hsemicolon, rfl⟩⟩)))))
  | nextIteration hkind hloop hsemicolon =>
    obtain ⟨c₁, hkw, hr⟩ := hread.cons
    exact .inr (.inr (.inr (.inr (.inr (.inr (.inl ⟨hkw.nextIs hkind,
      (jumpStatement_eq_ok_iff hkw).2 ⟨hloop, _, hr, hsemicolon, rfl⟩⟩))))))

mutual

/-- Derived statements are read where no `else` follows that they could take. -/
theorem statement_complete {n : Nat} {inLoop isOpen : Bool} {s : Stmt} {read : List Token}
    {c c' : Cursor} (h : Statement inLoop isOpen s read) (hread : c.Reads read c')
    (hbudget : 4 * read.length ≤ n + 1)
    (hnext : isOpen = true → ¬ c'.NextIs (.keyword .elseKw)) :
    statement n inLoop c = .ok s c' := by
  cases h with
  | simple h => exact simple_complete h hread hbudget
  | block hopen hitems hclose =>
    simp only [List.length_cons, List.length_append, List.length_nil] at hbudget
    obtain ⟨k, rfl⟩ : ∃ k, n = k + 2 := ⟨n - 2, by omega⟩
    obtain ⟨c₁, hl, hread⟩ := hread.cons
    obtain ⟨c₂, hread, hr⟩ := hread.append
    have hok := items_complete hitems hread hr hclose [] (n := k) (by omega)
    exact statement_succ_iff.2 (.inr (.inl ⟨hl.nextIs hopen, _,
      block_succ_iff.2 ⟨_, c₁, hl, hopen, hok⟩, rfl⟩))
  | branch hkind hopen he hclose htrue =>
    simp only [List.length_cons, List.length_append] at hbudget
    obtain ⟨k, rfl⟩ : ∃ k, n = k + 2 := ⟨n - 2, by omega⟩
    obtain ⟨c₁, hkw, hread⟩ := hread.cons
    obtain ⟨c₂, c₃, c₄, hl, hcondition, hr, hread⟩ :=
      parenthesized_complete he hclose hread (n := k) (by omega)
    have hbody := statement_complete htrue hread (n := k) (by omega) fun _ => hnext rfl
    exact statement_succ_iff.2 (.inr (.inr (.inl ⟨hkw.nextIs hkind,
      (branchStatement_succ_iff hkw).2 ⟨_, c₂, _, c₃, _, c₄, _, c', hl, hopen, hcondition, hr,
        hclose, hbody, .inl ⟨hnext rfl, rfl, rfl⟩⟩⟩)))
  | branches hkind hopen he hclose htrue hkind' hfalse =>
    simp only [List.length_cons, List.length_append] at hbudget
    obtain ⟨k, rfl⟩ : ∃ k, n = k + 2 := ⟨n - 2, by omega⟩
    obtain ⟨c₁, hkw, hread⟩ := hread.cons
    obtain ⟨c₂, c₃, c₄, hl, hcondition, hr, hread⟩ :=
      parenthesized_complete he hclose hread (n := k) (by omega)
    obtain ⟨c₅, hbefore, hread⟩ := hread.append
    obtain ⟨c₆, hels, hafter⟩ := hread.cons
    have hbefore := statement_complete htrue hbefore (n := k) (by omega) fun hopen => nomatch hopen
    have hafter := statement_complete hfalse hafter (n := k) (by omega) hnext
    exact statement_succ_iff.2 (.inr (.inr (.inl ⟨hkw.nextIs hkind,
      (branchStatement_succ_iff hkw).2 ⟨_, c₂, _, c₃, _, c₄, _, c₅, hl, hopen, hcondition, hr,
        hclose, hbefore, .inr ⟨_, c₆, _, hels, hkind', hafter, rfl⟩⟩⟩)))
  | whileLoop hkind hopen he hclose hbody =>
    simp only [List.length_cons, List.length_append] at hbudget
    obtain ⟨k, rfl⟩ : ∃ k, n = k + 2 := ⟨n - 2, by omega⟩
    obtain ⟨c₁, hkw, hread⟩ := hread.cons
    obtain ⟨c₂, c₃, c₄, hl, hcondition, hr, hread⟩ :=
      parenthesized_complete he hclose hread (n := k) (by omega)
    have hbody := statement_complete hbody hread (n := k) (by omega) hnext
    exact statement_succ_iff.2 (.inr (.inr (.inr (.inl ⟨hkw.nextIs hkind,
      (whileStatement_succ_iff hkw).2 ⟨_, c₂, _, c₃, _, c₄, _, hl, hopen, hcondition, hr, hclose,
        hbody, rfl⟩⟩))))
  | forLoop hkind hopen hfirst hcondition hsemicolon hincrement hclose hbody =>
    simp only [List.length_cons, List.length_append] at hbudget
    obtain ⟨k, rfl⟩ : ∃ k, n = k + 2 := ⟨n - 2, by omega⟩
    obtain ⟨c₁, hkw, hread⟩ := hread.cons
    obtain ⟨c₂, hl, hread⟩ := hread.cons
    obtain ⟨c₃, hstart, hread⟩ := hread.append
    obtain ⟨c₄, htest, hread⟩ := hread.append
    obtain ⟨c₅, hr, hread⟩ := hread.cons
    obtain ⟨c₆, hstep, hread⟩ := hread.append
    obtain ⟨c₇, hr', hread⟩ := hread.cons
    have hfirst := firstClause_complete hfirst hstart (n := k) (by omega)
    have hcondition := condition_complete hcondition htest (n := k) (by omega)
      (hr.nextIs hsemicolon) rfl rfl
    have hincrement := optional_complete hincrement hstep (n := k) (by omega) (hr'.nextIs hclose)
      rfl rfl
    have hbody := statement_complete hbody hread (n := k) (by omega) hnext
    exact statement_succ_iff.2 (.inr (.inr (.inr (.inr (.inl ⟨hkw.nextIs hkind,
      (forStatement_succ_iff hkw).2 ⟨_, c₂, _, c₃, _, c₄, _, c₅, _, c₆, _, c₇, _, hl, hopen,
        hfirst, hcondition, hr, hsemicolon, hincrement, hr', hclose, hbody, rfl⟩⟩)))))
termination_by 2 * read.length

/-- Derived declarations and statements are read where no `else` follows. -/
theorem item_complete {n : Nat} {inLoop : Bool} {s : Stmt} {read : List Token} {c c' : Cursor}
    (h : Item inLoop s read) (hread : c.Reads read c')
    (hbudget : 4 * read.length ≤ n) (hnext : ¬ c'.NextIs (.keyword .elseKw)) :
    item n inLoop c = .ok s c' := by
  obtain ⟨k, rfl⟩ : ∃ k, n = k + 1 := by
    obtain ⟨t, rest, rfl, -⟩ := item_head h
    exact ⟨n - 1, by simp at hbudget; omega⟩
  cases h with
  | declaration hs =>
    obtain ⟨hvar, hok⟩ := declaration_complete hs hread (n := k) (by omega)
    exact item_succ_iff.2 (.inl ⟨hvar, hok⟩)
  | function hkind hname hopen hparams hnames hlength hclose hbegin hitems hend =>
    simp only [List.length_cons, List.length_append, List.length_nil] at hbudget
    obtain ⟨k, rfl⟩ : ∃ m, k = m + 2 := ⟨k - 2, by omega⟩
    obtain ⟨c₁, hkw, hread⟩ := hread.cons
    obtain ⟨c₂, ht, hread⟩ := hread.cons
    obtain ⟨c₃, hl, hread⟩ := hread.cons
    obtain ⟨c₄, hlist, hread⟩ := hread.append
    obtain ⟨c₅, hr, hread⟩ := hread.cons
    obtain ⟨c₆, hlbrace, hread⟩ := hread.cons
    obtain ⟨c₇, hread, hrbrace⟩ := hread.append
    have hlist := parameterList_complete hparams hlist (n := k + 1) (by omega) hlength hnames
      (hr.nextIs hclose)
    have hok := items_complete hitems hread hrbrace hend [] (n := k) (by omega)
    refine item_succ_iff.2 (.inr (.inl ⟨hkw.nextIs hkind, ?_⟩))
    exact (functionDeclaration_succ_iff hkw).2 ⟨_, c₂, _, _, c₃, _, c₄, _, c₅, _, ht, hname, hl,
      hopen, hlist, hr, hclose, block_succ_iff.2 ⟨_, c₆, hlbrace, hbegin, hok⟩, rfl⟩
  | statement hs =>
    have hok := statement_complete hs hread (n := k) (by omega) fun _ => hnext
    exact item_succ_iff.2 (.inr (.inr
      ⟨not_nextIs_of_statement hs hread rfl, not_nextIs_of_statement hs hread rfl, hok⟩))
termination_by 2 * read.length + 1

/-- Derived declarations and statements are read one by one up to the closing brace. -/
theorem items_complete {n : Nat} {inLoop : Bool} {ss : List Stmt} {read : List Token} {r : Token}
    {c c₁ c' : Cursor} (h : Items inLoop ss read) (hread : c.Reads read c₁)
    (hr : c₁.Reads [r] c') (hclose : r.kind = .punct .rightBrace) (done : List Stmt)
    (hbudget : 4 * read.length + 4 ≤ n) :
    items n inLoop done c = .ok (done.reverse ++ ss) c' := by
  obtain ⟨k, rfl⟩ : ∃ k, n = k + 1 := ⟨n - 1, by omega⟩
  cases h with
  | nil =>
    obtain rfl := Cursor.reads_nil_iff.1 hread
    exact items_succ_iff.2 (.inl ⟨r, hr, hclose, (List.append_nil _).symm⟩)
  | @cons _ s ss first rest hs hss =>
    simp only [List.length_append] at hbudget
    obtain ⟨c₂, hfirst, hrest⟩ := hread.append
    have hnext := noElse_of_items hss hrest ((hr.nextIs hclose).ne (by decide))
    obtain ⟨t, tail, rfl, -⟩ := item_head hs
    simp only [List.length_cons] at hbudget
    have hok := item_complete hs hfirst (n := k) (by simp only [List.length_cons]; omega) hnext
    have hmore := items_complete hss hrest hr hclose (s :: done) (n := k) (by omega)
    rw [List.reverse_cons, List.append_assoc] at hmore
    refine items_succ_iff.2 (.inr ⟨not_nextIs_of_item hs hfirst rfl, ?_, s, c₂, hok, hmore⟩)
    rw [hfirst.ahead]
    exact List.cons_ne_nil _ _
termination_by 2 * read.length + 2

end

end Grammar

end Script
