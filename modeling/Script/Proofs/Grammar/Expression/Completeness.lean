import Script.Proofs.Grammar.Expression.Soundness

/-!
# Every expression of the grammar is read

A canonical expression is read from the tokens it is written with wherever nothing follows that
belongs to it, and the reader stops behind these tokens.

Calls and operands are gathered by loops: what is written first is read first and handed on. So for
the places that these loops read, completeness says that reading goes on behind the expression with
the expression in hand and enough of the budget left. A token is worth four units of the budget; the
looser a place, the more readers are passed before the first token is reached.

- `Grammar.Called`, `Grammar.Operand`, `Grammar.Operated`, `Grammar.Whole`: what the readers of the
  four kinds of places do on the tokens that an expression is written with.
- `Grammar.Called.operand`, `Grammar.Operand.operated`, `Grammar.Operated.whole`: what is read in a
  tight place is read in the next looser one.
- `Grammar.Complete`, `Grammar.complete`: canonical expressions are read in every place they fit.
- `Expr.parser_eq_ok_iff`: which tokens make which expression.
-/

namespace Script

namespace Grammar

variable {n m level : Nat} {c c₁ c' : Cursor} {e left right callee : Expr}
  {read before after : List Token} {args done : List Expr} {t : Token} {op : Operator}

/-! ## Places -/

/-- The loop over calls takes over behind `read` with `e` in hand. -/
def Called (e : Expr) (read : List Token) : Prop :=
  ∀ ⦃n c c₁⦄, c.Reads read c₁ → 4 * read.length ≤ n + 3 →
    ∃ m, n < m + read.length ∧
      ∀ ⦃e' c'⦄, calls m e c₁ = .ok e' c' → unary (n + 1) c = .ok e' c'

/-- `read` is an operand of an operator. -/
def Operand (e : Expr) (read : List Token) : Prop :=
  ∀ ⦃n c c'⦄, c.Reads read c' → 4 * read.length ≤ n + 2 → ¬ c'.NextIs (.punct .leftParen) →
    unary n c = .ok e c'

/-- The loop over operators takes over behind `read` with `e` in hand. -/
def Operated (e : Expr) (read : List Token) : Prop :=
  ∀ ⦃level n c c₁⦄, 1 ≤ level → level ≤ e.rung → c.Reads read c₁ → 4 * read.length ≤ n + 2 →
    ¬ c₁.NextIs (.punct .leftParen) → c₁.Below (e.rung + 1) →
    ∃ m, n < m + read.length ∧
      ∀ ⦃e' c'⦄, operators m level e c₁ = .ok e' c' → operation (n + 1) level c = .ok e' c'

/-- `read` is an expression. -/
def Whole (e : Expr) (read : List Token) : Prop :=
  ∀ ⦃n c c'⦄, c.Reads read c' → 4 * read.length ≤ n → c'.Ends → expression n c = .ok e c'

theorem calls_eq_ok (hm : 0 < m) (hcall : ¬ c.NextIs (.punct .leftParen)) :
    calls m e c = .ok e c := by
  cases m with
  | zero => exact absurd hm (Nat.lt_irrefl 0)
  | succ m => exact calls_succ_iff.2 (.inl ⟨hcall, rfl, rfl⟩)

theorem operators_eq_ok (hm : 0 < m) (hbelow : c.Below level) :
    operators m level e c = .ok e c := by
  cases m with
  | zero => exact absurd hm (Nat.lt_irrefl 0)
  | succ m => exact operators_succ_iff.2 (.inl ⟨hbelow, rfl, rfl⟩)

/-- What can be called is an operand where no call follows. -/
theorem Called.operand (h : Called e read) (hne : 0 < read.length) : Operand e read := by
  intro n c c' hread hbudget hcall
  obtain ⟨k, rfl⟩ : ∃ k, n = k + 1 := ⟨n - 1, by omega⟩
  obtain ⟨m, hm, hloop⟩ := h hread (n := k) (by omega)
  exact hloop (calls_eq_ok (by omega) hcall)

/-- An operand is handed to the loop over operators. -/
theorem Operand.operated (h : Operand e read) (hne : 0 < read.length) : Operated e read := by
  intro level n c c₁ _ _ hread hbudget hcall _
  refine ⟨n, by omega, fun e' c' hloop => ?_⟩
  exact operation_succ_iff.2 ⟨e, c₁, h hread hbudget hcall, hloop⟩

/-- What the loop over operators ends with is an operation. -/
theorem Operated.operation (h : Operated e read) (hne : 0 < read.length) (hpos : 1 ≤ level)
    (hlevel : level ≤ e.rung) (hread : c.Reads read c') (hbudget : 4 * read.length ≤ n + 1)
    (hcall : ¬ c'.NextIs (.punct .leftParen)) (hbelow : c'.Below level) :
    operation n level c = .ok e c' := by
  obtain ⟨k, rfl⟩ : ∃ k, n = k + 1 := ⟨n - 1, by omega⟩
  have hbelow' : c'.Below (e.rung + 1) := by
    intro t op ht hop
    have := hbelow t op ht hop
    omega
  obtain ⟨m, hm, hloop⟩ := h hpos hlevel hread (n := k) (by omega) hcall hbelow'
  exact hloop (operators_eq_ok (by omega) hbelow)

/-- An operation is an expression where no assignment follows. -/
theorem Operated.whole (h : Operated e read) (hne : 0 < read.length) (hrung : 1 ≤ e.rung) :
    Whole e read := by
  intro n c c' hread hbudget hends
  obtain ⟨hcall, hequal, hbelow⟩ := Cursor.ends_iff.1 hends
  obtain ⟨k, rfl⟩ : ∃ k, n = k + 1 := ⟨n - 1, by omega⟩
  have hok := h.operation hne (Nat.le_refl 1) hrung hread (n := k) (by omega) hcall hbelow
  exact expression_succ_iff.2 ⟨e, c', hok, .inl ⟨hequal, rfl, rfl⟩⟩

/-! ## Expressions by how tightly they bind -/

/-- The expression `e`, written with `read`, is read in every place that it binds tightly enough
for. -/
structure Complete (e : Expr) (read : List Token) : Prop where
  called : 8 ≤ e.rung → Called e read
  operand : 7 ≤ e.rung → Operand e read
  operated : 1 ≤ e.rung → Operated e read
  whole : Whole e read

theorem complete_of_called (h : Called e read) (hne : 0 < read.length) (hrung : 1 ≤ e.rung) :
    Complete e read where
  called _ := h
  operand _ := h.operand hne
  operated _ := (h.operand hne).operated hne
  whole := ((h.operand hne).operated hne).whole hne hrung

theorem complete_of_operand (h : Operand e read) (hne : 0 < read.length) (hrung : e.rung = 7) :
    Complete e read where
  called hcalled := by omega
  operand _ := h
  operated _ := h.operated hne
  whole := (h.operated hne).whole hne (by omega)

theorem complete_of_operated (h : Operated e read) (hne : 0 < read.length) (hpos : 1 ≤ e.rung)
    (hrung : e.rung < 7) : Complete e read where
  called hcalled := by omega
  operand hoperand := by omega
  operated _ := h
  whole := h.whole hne hpos

theorem complete_of_whole (h : Whole e read) (hrung : e.rung = 0) : Complete e read where
  called hcalled := by omega
  operand hoperand := by omega
  operated hoperated := by omega
  whole := h

/-- A closed expression is handed to the loop over calls. -/
theorem called_of_closed (ht : t.kind.unaryOp? = none)
    (h : ∀ {n c c'}, c.Reads (t :: read) c' → 4 * (t :: read).length ≤ n + 3 →
      closed n c = .ok e c') : Called e (t :: read) := by
  intro n c c₁ hread hbudget
  have hhead : c.ahead.head? = some t := by
    rw [hread.ahead]
    rfl
  refine ⟨n, Nat.lt_add_of_pos_right (Nat.succ_pos _), fun e' c' hloop => ?_⟩
  exact unary_succ_iff.2 (.inr ⟨t, e, c₁, hhead, ht, h hread hbudget, hloop⟩)

/-! ## Expressions by their outermost part -/

/-- A token that is an expression. -/
theorem complete_leaf (hleaf : t.kind.leaf? t.pos = some e) (hrung : e.rung = 9) :
    Complete e [t] := by
  refine complete_of_called (called_of_closed ?_ ?_) Nat.one_pos (by omega)
  · rcases TokenKind.leaf?_eq_some_iff.1 hleaf with ⟨l, hkind, -⟩ | ⟨name, hkind, -⟩
    · rw [hkind]
      rcases l with _ | _ | (_ | _) | _ <;> rfl
    · rw [hkind]
      rfl
  · intro n c c' hread hbudget
    obtain ⟨k, rfl⟩ : ∃ k, n = k + 1 := ⟨n - 1, by simp at hbudget; omega⟩
    exact closed_succ_iff.2 (.inl ⟨t, hread, hleaf⟩)

variable {l r : Token} {inner value operand : Expr} {name : String}

theorem complete_group (hl : l.kind = .punct .leftParen) (h : Complete inner read)
    (hr : r.kind = .punct .rightParen) :
    Complete (.group inner l.pos) (l :: (read ++ [r])) := by
  refine complete_of_called (called_of_closed ?_ ?_) (Nat.succ_pos _) (by decide : 1 ≤ 9)
  · rw [hl]
    rfl
  · intro n c c' hread hbudget
    simp only [List.length_cons, List.length_append, List.length_nil] at hbudget
    obtain ⟨k, rfl⟩ : ∃ k, n = k + 1 := ⟨n - 1, by omega⟩
    obtain ⟨c₁, hl', hread⟩ := hread.cons
    obtain ⟨c₂, hread, hr'⟩ := hread.append
    have hends : c₂.Ends := Cursor.ends_of_nextIs (hr'.nextIs hr) rfl
    have hinner := h.whole hread (n := k) (by omega) hends
    exact closed_succ_iff.2 (.inr ⟨l, c₁, inner, c₂, r, hl', hl, hinner, hr', hr, rfl⟩)

theorem complete_assign (ht : t.kind = .ident name) (hr : r.kind = .punct .equal)
    (h : Complete value read) : Complete (.assign name value t.pos) (t :: r :: read) := by
  refine complete_of_whole ?_ rfl
  intro n c c' hread hbudget hends
  simp only [List.length_cons] at hbudget
  obtain ⟨k, rfl⟩ : ∃ k, n = k + 1 := ⟨n - 1, by omega⟩
  obtain ⟨c₁, ht', hread⟩ := hread.cons
  obtain ⟨c₂, hr', hread⟩ := hread.cons
  have hleaf : t.kind.leaf? t.pos = some (.ident name t.pos) := by rw [ht]; rfl
  have hnext := hr'.nextIs hr
  have hcall : ¬ c₁.NextIs (.punct .leftParen) := hnext.ne (by decide)
  have hbelow : c₁.Below 1 := Cursor.below_of_nextIs hnext (fun op hop => nomatch hop)
  -- the name is read as an operation before the sign is seen
  have htarget := ((complete_leaf hleaf rfl).operated (by simp [Expr.rung])).operation
    Nat.one_pos (Nat.le_refl 1) (by simp [Expr.rung]) ht' (n := k) (by simp; omega) hcall hbelow
  have hvalue := h.whole hread (n := k) (by omega) hends
  exact expression_succ_iff.2
    ⟨_, c₁, htarget, .inr ⟨r, c₂, name, t.pos, value, hr', hr, rfl, hvalue, rfl⟩⟩

theorem complete_unary {op : UnaryOp} (ht : t.kind = op.kind) (h : Complete operand read)
    (hrung : 7 ≤ operand.rung) : Complete (.unary op operand t.pos) (t :: read) := by
  refine complete_of_operand ?_ (Nat.succ_pos _) rfl
  intro n c c' hread hbudget hcall
  simp only [List.length_cons] at hbudget
  obtain ⟨k, rfl⟩ : ∃ k, n = k + 1 := ⟨n - 1, by omega⟩
  obtain ⟨c₁, ht', hread⟩ := hread.cons
  have hoperand := h.operand hrung hread (n := k) (by omega) hcall
  have hop := TokenKind.unaryOp?_eq_some_iff.2 ht
  exact unary_succ_iff.2 (.inl ⟨t, op, c₁, operand, ht', hop, hoperand, rfl⟩)

/-- Behind its left operand the loop over operators finds the operator, and goes on with the joined
operands in hand. -/
theorem complete_join (hl : Complete left before) (hlevel : op.level ≤ left.rung)
    (ht : t.kind = op.kind) (hr : Complete right after) (hlevel' : op.level < right.rung)
    (hne : 0 < before.length) (hne' : 0 < after.length) :
    Complete (op.join left right t.pos) (before ++ t :: after) := by
  have hrung := Expr.rung_join op left right t.pos
  have hpos := op.level_pos
  have hle := op.level_le
  have hop := TokenKind.operator?_eq_some_iff.2 ht
  refine complete_of_operated ?_ (List.length_pos_iff.2 (by simp)) (by omega) (by omega)
  intro level n c c₁ hlevel₀ hjoin hread hbudget hcall hbelow
  rw [hrung] at hjoin hbelow
  simp only [List.length_append, List.length_cons] at hbudget ⊢
  obtain ⟨c₂, hbefore, hread⟩ := hread.append
  obtain ⟨c₃, ht', hafter⟩ := hread.cons
  have hnext := ht'.nextIs rfl
  have hcall₂ : ¬ c₂.NextIs (.punct .leftParen) := by
    refine hnext.ne fun hkind => ?_
    rw [hkind] at hop
    cases hop
  have hbelow₂ : c₂.Below (left.rung + 1) := by
    refine Cursor.below_of_nextIs hnext fun op' hop' => ?_
    obtain rfl := Option.some.inj (hop.symm.trans hop')
    omega
  obtain ⟨m, hm, hloop⟩ := hl.operated (by omega) hlevel₀ (by omega) hbefore (n := n) (by omega)
    hcall₂ hbelow₂
  obtain ⟨k, rfl⟩ : ∃ k, m = k + 1 := ⟨m - 1, by omega⟩
  have hright := (hr.operated (by omega)).operation hne' (by omega) hlevel' hafter (n := k)
    (by omega) hcall hbelow
  refine ⟨k, by omega, fun e' c' hrest => hloop ?_⟩
  exact operators_succ_iff.2 (.inr ⟨t, op, c₃, right, c₁, ht', hop, hjoin, hright, hrest⟩)

/-! ## Arguments -/

theorem arguments_eq_ok (h : ∀ arg ∈ args, ∀ ⦃read⦄, arg.Written read → Complete arg read)
    (hwritten : Expr.WrittenAll args read) (hne : args ≠ []) (hread : c.Reads read c')
    (hbudget : 4 * read.length < n) (hroom : done.length + args.length ≤ maxArity)
    (hclose : c'.NextIs (.punct .rightParen)) :
    arguments n done c = .ok (done.reverse ++ args) c' := by
  induction args generalizing read n done c with
  | nil => exact absurd rfl hne
  | cons arg args ih =>
    obtain ⟨harg, hargs⟩ := List.forall_mem_cons.1 h
    obtain ⟨k, rfl⟩ : ∃ k, n = k + 1 := ⟨n - 1, by omega⟩
    have hroom' : done.length < maxArity := by
      rw [List.length_cons] at hroom
      omega
    cases hwritten with
    | last hw =>
      have hok := (harg hw).whole hread (n := k) (by omega) (Cursor.ends_of_nextIs hclose rfl)
      exact arguments_succ_iff.2
        ⟨hroom', arg, c', hok, .inl ⟨hclose.ne (by decide), by simp, rfl⟩⟩
    | @more t _ a args before after hw ht hws =>
      simp only [List.length_append, List.length_cons] at hbudget
      obtain ⟨c₁, hbefore, hread⟩ := hread.append
      obtain ⟨c₂, ht', hafter⟩ := hread.cons
      have hends : c₁.Ends := Cursor.ends_of_nextIs (ht'.nextIs ht) rfl
      have hok := (harg hw).whole hbefore (n := k) (by omega) hends
      have hroom₁ : (arg :: done).length + (a :: args).length ≤ maxArity := by
        simp only [List.length_cons] at hroom ⊢
        omega
      have hrest := ih hargs hws (List.cons_ne_nil _ _) hafter (n := k) (by omega) hroom₁
      rw [List.reverse_cons, List.append_assoc] at hrest
      exact arguments_succ_iff.2 ⟨hroom', arg, c₁, hok, .inr ⟨t, c₂, ht', ht, hrest⟩⟩

theorem complete_call (h : Complete callee before) (hrung : 8 ≤ callee.rung)
    (hne : 0 < before.length) (hl : l.kind = .punct .leftParen)
    (hargs : ∀ arg ∈ args, ∀ ⦃read⦄, arg.Written read → Complete arg read)
    (hwritten : Expr.WrittenAll args read) (hlength : args.length ≤ maxArity)
    (hr : r.kind = .punct .rightParen) :
    Complete (.call callee args r.pos) (before ++ l :: (read ++ [r])) := by
  refine complete_of_called ?_ (List.length_pos_iff.2 (by simp)) (by decide : 1 ≤ 8)
  intro n c c₁ hread hbudget
  simp only [List.length_append, List.length_cons, List.length_nil] at hbudget ⊢
  obtain ⟨c₂, hbefore, hread⟩ := hread.append
  obtain ⟨c₃, hl', hread⟩ := hread.cons
  obtain ⟨c₄, hread, hr'⟩ := hread.append
  obtain ⟨m, hm, hloop⟩ := h.called hrung hbefore (n := n) (by omega)
  obtain ⟨k, rfl⟩ : ∃ k, m = k + 1 := ⟨m - 1, by omega⟩
  have hclose := hr'.nextIs hr
  have hok : Parser.Omissible (.punct .rightParen) [] (arguments k []) c₃ args c₄ := by
    cases args with
    | nil =>
      cases hwritten
      obtain rfl := Cursor.reads_nil_iff.1 hread
      exact .inl ⟨hclose, rfl, rfl⟩
    | cons arg args =>
      refine .inr ⟨Cursor.not_nextIs_of_writtenAll hwritten hread rfl, ?_⟩
      exact arguments_eq_ok hargs hwritten (List.cons_ne_nil _ _) hread (by omega)
        (by rwa [List.length_nil, Nat.zero_add]) hclose
  refine ⟨k, by omega, fun e' c' hrest => hloop ?_⟩
  exact calls_succ_iff.2 (.inr ⟨l, c₃, args, c₄, r, c₁, hl', hl, hok, hr', hr, hrest⟩)

/-! ## Every place -/

/-- **Canonical expressions are read** in every place they bind tightly enough for. -/
theorem complete (hc : e.Canonical) : ∀ ⦃read⦄, e.Written read → Complete e read := by
  induction hc with
  | literal l pos =>
    intro read hw
    cases hw with
    | literal hkind =>
      exact complete_leaf (TokenKind.leaf?_eq_some_iff.2 (.inl ⟨l, hkind, rfl⟩)) rfl
  | ident name pos =>
    intro read hw
    cases hw with
    | ident hkind =>
      exact complete_leaf (TokenKind.leaf?_eq_some_iff.2 (.inr ⟨name, hkind, rfl⟩)) rfl
  | group pos _ ih =>
    intro read hw
    cases hw with
    | group hl hw hr => exact complete_group hl (ih hw) hr
  | assign name pos _ ih =>
    intro read hw
    cases hw with
    | assign ht hr hw => exact complete_assign ht hr (ih hw)
  | unary op pos _ hrung ih =>
    intro read hw
    cases hw with
    | unary ht hw => exact complete_unary ht (ih hw) hrung
  | binary _ hl _ hr ihl ihr =>
    intro read hw
    cases hw with
    | binary hwl ht hwr =>
      rw [← BinaryOp.level_eq] at hl hr
      exact complete_join (ihl hwl) hl ht (ihr hwr) hr hwl.length_pos hwr.length_pos
  | logical _ hl _ hr ihl ihr =>
    intro read hw
    cases hw with
    | logical hwl ht hwr =>
      rw [← LogicalOp.level_eq] at hl hr
      exact complete_join (ihl hwl) hl ht (ihr hwr) hr hwl.length_pos hwr.length_pos
  | call pos _ hrung _ hlength ih ihs =>
    intro read hw
    cases hw with
    | call hw hl hws hr =>
      exact complete_call (ih hw) hrung hw.length_pos hl ihs hws hlength hr

end Grammar

namespace Expr

variable {c c' : Cursor} {e : Expr} {read : List Token}

theorem parser_sound (h : parser c = .ok e c') :
    ∃ read, c.Reads read c' ∧ e.Canonical ∧ e.Written read ∧ c'.Ends := by
  obtain ⟨⟨-, hcanonical, read, hread, hwritten⟩, hends⟩ := (Grammar.sound _).expression h
  exact ⟨read, hread, hcanonical, hwritten, hends⟩

theorem parser_complete (hcanonical : e.Canonical) (hwritten : e.Written read)
    (hread : c.Reads read c') (hends : c'.Ends) : parser c = .ok e c' := by
  refine (Grammar.complete hcanonical hwritten).whole hread ?_ hends
  have hlength := congrArg List.length hread.ahead
  rw [List.length_append] at hlength
  unfold Cursor.budget
  omega

/-- **An expression is read exactly from the tokens it is written with**, where it is canonical and
the token behind them does not continue it. -/
theorem parser_eq_ok_iff :
    parser c = .ok e c' ↔ ∃ read, c.Reads read c' ∧ e.Canonical ∧ e.Written read ∧ c'.Ends := by
  constructor
  · exact parser_sound
  · rintro ⟨read, hread, hcanonical, hwritten, hends⟩
    exact parser_complete hcanonical hwritten hread hends

end Expr

end Script
