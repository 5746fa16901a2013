import Script.Proofs.Grammar.Completing
import Script.Proofs.Grammar.Expression.Soundness
import Script.Proofs.Grammar.Settling

/-!
# Expressions that are broken off

Where a reader of expressions fails, the tokens it has read begin an expression, or a sign of
assignment among them is the first that is wrong. An operand that is missing can be `nil`, and an
operand that is broken off is completed on its own: it binds as tightly as its place asks for.

- `Expr.Spans`, `Grammar.Phrase`: tokens that an expression is written with.
- `Grammar.ArgumentsBehind`: tokens that arguments behind others are written with.
- `Grammar.ExpressionsComplete.completes`: all readers of expressions.
-/

namespace Script

/-- A token of a given kind to complete others with. -/
def TokenKind.spare (kind : TokenKind) : Token := ⟨kind, "", .start⟩

/-- The canonical expression `e` is written with the tokens `read` and binds at least as tightly as
`rung`. -/
structure Expr.Spans (e : Expr) (rung : Nat) (read : List Token) : Prop where
  rung_le : rung ≤ e.rung
  canonical : e.Canonical
  written : e.Written read

/-- What is read of an expression between two positions spans it. -/
theorem Expr.Stands.spans {e : Expr} {rung : Nat} {c c' : Cursor} {read : List Token}
    (h : e.Stands rung c c') (hread : c.Reads read c') : e.Spans rung read := by
  obtain ⟨read', hread', hwritten⟩ := h.written
  obtain rfl := hread.read_unique hread'
  exact ⟨h.rung_le, h.canonical, hwritten⟩

namespace Grammar

open Script.Parser

variable {n m room level : Nat} {c c' : Cursor} {left callee : Expr} {before read : List Token}
  {t : Token} {op : Operator}

/-- The tokens `read` are an expression that binds at least as tightly as `rung`. -/
def Phrase (rung : Nat) (read : List Token) : Prop := ∃ e : Expr, e.Spans rung read

theorem Phrase.loosen {rung rung' : Nat} (h : Phrase rung read) (hle : rung' ≤ rung) :
    Phrase rung' read := by
  obtain ⟨e, h⟩ := h
  exact ⟨e, Nat.le_trans hle h.rung_le, h.canonical, h.written⟩

/-- A constant is an expression for any place. -/
theorem phrase_nil (h : level ≤ 9) : Phrase level [(TokenKind.keyword .nilKw).spare] := by
  have hkind : (TokenKind.keyword .nilKw).spare.kind = Literal.nil.kind := rfl
  exact ⟨.literal .nil (TokenKind.keyword .nilKw).spare.pos, h, .literal _ _, .literal hkind⟩

/-- An operator joins an expression with what stands behind it. -/
theorem phrase_join (hleft : left.Spans level before) (hop : t.kind.operator? = some op)
    (hlevel : level ≤ op.level) (hlevel' : op.level ≤ left.rung) {right : Expr}
    (hright : right.Spans (op.level + 1) read) :
    (op.join left right t.pos).Spans level (before ++ t :: read) := by
  refine ⟨?_, hleft.canonical.join hlevel' hright.canonical hright.rung_le _,
    hleft.written.join (TokenKind.operator?_eq_some_iff.1 hop) hright.written⟩
  rw [Expr.rung_join]
  exact hlevel

/-- The tokens `read` are arguments, at least one, for which there is room behind `taken` others. -/
def ArgumentsBehind (taken : Nat) (read : List Token) : Prop :=
  ∃ arg args, Expr.WrittenAll (arg :: args) read ∧ (∀ e ∈ arg :: args, e.Canonical) ∧
    taken + (arg :: args).length ≤ maxArity

theorem argumentsBehind_single {taken : Nat} {e : Expr} (hroom : taken < maxArity)
    (he : e.Spans 0 read) : ArgumentsBehind taken read :=
  ⟨e, [], .last he.written, List.forall_mem_singleton.2 he.canonical, hroom⟩

theorem argumentsBehind_more {taken : Nat} {e : Expr} {after : List Token} (he : e.Spans 0 read)
    (ht : t.kind = .punct .comma) (hmore : ArgumentsBehind (taken + 1) after) :
    ArgumentsBehind taken (read ++ t :: after) := by
  obtain ⟨arg, args, hwritten, hcanonical, hroom⟩ := hmore
  refine ⟨e, arg :: args, .more he.written ht hwritten,
    List.forall_mem_cons.2 ⟨he.canonical, hcanonical⟩, ?_⟩
  rw [List.length_cons]
  omega

/-- An argument list in parentheses makes a call. -/
theorem phrase_call {args : List Expr} {l r : Token} (hcallee : callee.Spans 8 before)
    (hl : l.kind = .punct .leftParen) (hargs : Expr.WrittenAll args read)
    (hcanonical : ∀ arg ∈ args, arg.Canonical) (hroom : args.length ≤ maxArity)
    (hr : r.kind = .punct .rightParen) :
    (Expr.call callee args r.pos).Spans 8 (before ++ l :: (read ++ [r])) :=
  ⟨Nat.le_refl _, .call _ hcallee.canonical hcallee.rung_le hcanonical hroom,
    .call hcallee.written hl hargs hr⟩

/-- What the readers of expressions have read where they fail can be completed, if both budgets
allow for the tokens ahead. -/
structure ExpressionsComplete (n m : Nat) : Prop where
  expression {room : Nat} {c : Cursor} (hn : 16 * room + 4 ≤ n) (hm : 16 * room + 4 ≤ m) :
    Completes room (Phrase 0) (expression n) (expression m) c
  operation {level : Nat} (hlevel : level ≤ 7) {room : Nat} {c : Cursor} (hn : 16 * room + 3 ≤ n)
    (hm : 16 * room + 3 ≤ m) :
    Completes room (Phrase level) (operation n level) (operation m level) c
  operators {level room : Nat} {left : Expr} {before : List Token} {c : Cursor}
    (hleft : left.Spans level before) (hbelow : c.Below (left.rung + 1))
    (hn : 16 * room + 1 ≤ n) (hm : 16 * room + 1 ≤ m) :
    Completes room (fun rest => Phrase level (before ++ rest)) (operators n level left)
      (operators m level left) c
  unary {room : Nat} {c : Cursor} (hn : 16 * room + 2 ≤ n) (hm : 16 * room + 2 ≤ m) :
    Completes room (Phrase 7) (unary n) (unary m) c
  calls {callee : Expr} {before : List Token} {room : Nat} {c : Cursor}
    (hcallee : callee.Spans 8 before) (hn : 16 * room + 1 ≤ n) (hm : 16 * room + 1 ≤ m) :
    Completes room (fun rest => Phrase 8 (before ++ rest)) (calls n callee) (calls m callee) c
  arguments {done : List Expr} {room : Nat} {c : Cursor} (hn : 16 * room + 5 ≤ n)
    (hm : 16 * room + 5 ≤ m) :
    Completes room (ArgumentsBehind done.length) (arguments n done) (arguments m done) c
  closed {room : Nat} {c : Cursor} (hn : 16 * room + 1 ≤ n) (hm : 16 * room + 1 ≤ m) :
    Completes room (Phrase 9) (closed n) (closed m) c

theorem ExpressionsComplete.expression_succ (h : ExpressionsComplete n m)
    (hn : 16 * room + 4 ≤ n + 1) (hm : 16 * room + 4 ≤ m + 1) :
    Completes room (Phrase 0) (Grammar.expression (n + 1)) (Grammar.expression (m + 1)) c := by
  have hs := ExpressionsSettled.settled n m
  have hloosen (read : List Token) (hread : Phrase 1 read) : Completable (Phrase 0) read :=
    completable_of (hread.loosen (Nat.zero_le _))
  rw [Grammar.expression, Grammar.expression]
  refine .bind (hs.operation 1 (by omega) (by omega))
    (h.operation (by decide) (by omega) (by omega)) hloosen
    fun target c₁ read room₁ hok hread hroom₁ => ?_
  have htarget := ((sound n).operation (by decide) hok).1.spans hread
  have hvalue (c₂ : Cursor) (room₂ : Nat) (hroom₂ : room₂ < room₁) :
      Completes room₂ (Phrase 0) (Grammar.expression n) (Grammar.expression m) c₂ :=
    h.expression (by omega) (by omega)
  cases target with
  | ident name start =>
    refine .accept?_bind (.pure _) fun t c₂ room₂ _ hequal hroom₂ => ?_
    refine .bind (hs.expression (by omega) (by omega)) (hvalue c₂ room₂ hroom₂)
      (fun after hafter => ?_) fun value c₃ _ room₃ _ _ _ => .pure _
    obtain ⟨value, hvalue⟩ := hafter
    cases htarget.written with
    | ident hname =>
      exact completable_of ⟨.assign name value _, Nat.zero_le _, .assign _ _ hvalue.canonical,
        .assign hname hequal hvalue.written⟩
  | _ =>
    -- the target alone is an expression
    have htarget' : Phrase 0 (read ++ []) :=
      (List.append_nil read).symm ▸ ⟨_, Nat.zero_le _, htarget.canonical, htarget.written⟩
    exact .accept?_bind_late (fun _ => rfl) (fun _ => rfl) (completable_of htarget') (.pure _)
      hvalue

theorem ExpressionsComplete.operation_succ (h : ExpressionsComplete n m) (hlevel : level ≤ 7)
    (hn : 16 * room + 3 ≤ n + 1) (hm : 16 * room + 3 ≤ m + 1) :
    Completes room (Phrase level) (Grammar.operation (n + 1) level)
      (Grammar.operation (m + 1) level) c := by
  have hs := ExpressionsSettled.settled n m
  rw [Grammar.operation, Grammar.operation]
  refine .bind (hs.unary (by omega) (by omega)) (h.unary (by omega) (by omega))
    (fun read hread => completable_of (hread.loosen hlevel))
    fun left c₁ read room₁ hok hread hroom₁ => ?_
  have hleft := ((sound n).unary hok).1.spans hread
  have hrung := hleft.rung_le
  refine h.operators ⟨Nat.le_trans hlevel hrung, hleft.canonical, hleft.written⟩ ?_ (by omega)
    (by omega)
  exact Cursor.below_of_le (by omega)

theorem ExpressionsComplete.operators_succ (h : ExpressionsComplete n m)
    (hleft : left.Spans level before) (hbelow : c.Below (left.rung + 1))
    (hn : 16 * room + 1 ≤ n + 1) (hm : 16 * room + 1 ≤ m + 1) :
    Completes room (fun rest => Phrase level (before ++ rest))
      (Grammar.operators (n + 1) level left) (Grammar.operators (m + 1) level left) c := by
  have hs := ExpressionsSettled.settled n m
  rw [Grammar.operators, Grammar.operators]
  refine .next?_bind ?_
  cases ht : c.ahead.head? with
  | none => exact .pure left
  | some t =>
    dsimp only
    cases hop : t.kind.operator? with
    | none => exact .pure left
    | some op =>
      dsimp only
      by_cases hlevel : op.level < level
      · rw [if_pos hlevel]
        exact .pure left
      rw [if_neg hlevel, if_neg hlevel]
      have hlevel' : op.level ≤ left.rung := Nat.le_of_lt_succ (hbelow t op ht hop)
      have hjoin {right : Expr} {read : List Token} (hright : right.Spans (op.level + 1) read) :=
        phrase_join hleft hop (Nat.le_of_not_lt hlevel) hlevel' hright
      refine .advance_bind ht fun c₁ room₁ _ hroom₁ => ?_
      refine .bind (hs.operation (op.level + 1) (by omega) (by omega))
        (h.operation (Nat.succ_le_succ op.level_le) (by omega) (by omega))
        (fun read hread => ?_) fun right c₂ read room₂ hok hread hroom₂ => ?_
      · obtain ⟨right, hright⟩ := hread
        exact completable_of ⟨_, hjoin hright⟩
      · obtain ⟨hstands, -, hbelow'⟩ := (sound n).operation (Nat.succ_le_succ op.level_le) hok
        rw [← Expr.rung_join op left right t.pos] at hbelow'
        refine (h.operators (hjoin (hstands.spans hread)) hbelow' (by omega) (by omega)).mono
          fun rest hrest => completable_of ?_
        rw [List.append_assoc] at hrest
        exact hrest

theorem ExpressionsComplete.unary_succ (h : ExpressionsComplete n m) (hn : 16 * room + 2 ≤ n + 1)
    (hm : 16 * room + 2 ≤ m + 1) :
    Completes room (Phrase 7) (Grammar.unary (n + 1)) (Grammar.unary (m + 1)) c := by
  have hs := ExpressionsSettled.settled n m
  have hmissing : Completable (Phrase 7) [] := completable_nil_of (phrase_nil (by decide))
  rw [Grammar.unary, Grammar.unary]
  refine .next?_bind ?_
  cases ht : c.ahead.head? with
  | none => exact .unexpected hmissing
  | some t =>
    dsimp only
    cases hop : t.kind.unaryOp? with
    | some op =>
      refine .advance_bind ht fun c₁ room₁ _ hroom₁ => ?_
      refine .bind (hs.unary (by omega) (by omega)) (h.unary (by omega) (by omega))
        (fun read hread => ?_) fun operand c₂ _ room₂ _ _ _ => .pure _
      obtain ⟨operand, hoperand⟩ := hread
      exact completable_of ⟨.unary op operand t.pos, Nat.le_refl _,
        .unary _ _ hoperand.canonical hoperand.rung_le,
        .unary (TokenKind.unaryOp?_eq_some_iff.1 hop) hoperand.written⟩
    | none =>
      refine .bind (hs.closed (by omega) (by omega)) (h.closed (by omega) (by omega))
        (fun read hread => completable_of (hread.loosen (by decide)))
        fun callee c₁ read room₁ hok hread hroom₁ => ?_
      have hcallee := ((sound n).closed hok).spans hread
      have hrung := Nat.le_of_succ_le hcallee.rung_le
      exact (h.calls ⟨hrung, hcallee.canonical, hcallee.written⟩ (by omega) (by omega)).mono
        fun rest hrest => completable_of (hrest.loosen (by decide))

theorem ExpressionsComplete.calls_succ (h : ExpressionsComplete n m)
    (hcallee : callee.Spans 8 before) (hn : 16 * room + 1 ≤ n + 1) (hm : 16 * room + 1 ≤ m + 1) :
    Completes room (fun rest => Phrase 8 (before ++ rest)) (Grammar.calls (n + 1) callee)
      (Grammar.calls (m + 1) callee) c := by
  have hs := ExpressionsSettled.settled n m
  -- what follows the arguments
  have hcall {l : Token} (hl : l.kind = .punct .leftParen) {args : List Expr} {read : List Token}
      (hargs : Expr.WrittenAll args read) (hcanonical : ∀ arg ∈ args, arg.Canonical)
      (hcount : args.length ≤ maxArity) {room₁ : Nat} (hroom₁ : room₁ < room) (c₁ : Cursor) :
      Completes room₁ (fun rest => Phrase 8 (before ++ l :: (read ++ rest)))
        (do
          let pos ← expect .rightParen .argumentsEnd
          Grammar.calls n (.call callee args pos))
        (do
          let pos ← expect .rightParen .argumentsEnd
          Grammar.calls m (.call callee args pos)) c₁ := by
    have hclosed {r : Token} (hr : r.kind = .punct .rightParen) :=
      phrase_call hcallee hl hargs hcanonical hcount hr
    refine .expect_bind ⟨[(TokenKind.punct .rightParen).spare], _, hclosed rfl⟩
      fun r c₂ room₂ _ hr hroom₂ => ?_
    refine (h.calls (hclosed hr) (by omega) (by omega)).mono fun rest hrest => completable_of ?_
    simpa using hrest
  rw [Grammar.calls, Grammar.calls]
  refine .accept?_bind (.pure callee) fun l c₁ room₁ _ hl hroom₁ =>
    .nextIs_bind fun bare => .ite ?_ ?_
  · exact hcall hl .none (List.forall_mem_nil _) (Nat.zero_le _) hroom₁ c₁
  · refine .bind (hs.arguments [] (by omega) (by omega)) (h.arguments (by omega) (by omega))
      (fun read hread => ?_) fun args c₂ read room₂ hok hread hroom₂ => ?_
    · obtain ⟨arg, args, hwritten, hcanonical, hcount⟩ := hread
      rw [List.length_nil, Nat.zero_add] at hcount
      exact ⟨[(TokenKind.punct .rightParen).spare], _,
        phrase_call hcallee hl hwritten hcanonical hcount rfl⟩
    · obtain ⟨more, read', rfl, hcount, hread', -, hwritten, hcanonical⟩ := (sound n).arguments hok
      obtain rfl := hread.read_unique hread'
      exact hcall hl hwritten hcanonical hcount (by omega) c₂

theorem ExpressionsComplete.arguments_succ (h : ExpressionsComplete n m) {done : List Expr}
    (hn : 16 * room + 5 ≤ n + 1) (hm : 16 * room + 5 ≤ m + 1) :
    Completes room (ArgumentsBehind done.length) (Grammar.arguments (n + 1) done)
      (Grammar.arguments (m + 1) done) c := by
  have hs := ExpressionsSettled.settled n m
  rw [Grammar.arguments, Grammar.arguments]
  by_cases hfull : done.length ≥ maxArity
  · rw [if_pos hfull]
    exact .fail_of_code rfl
  rw [if_neg hfull, if_neg hfull]
  refine .bind (hs.expression (by omega) (by omega)) (h.expression (by omega) (by omega))
    (fun read hread => ?_) fun arg c₁ read room₁ hok hread hroom₁ => ?_
  · obtain ⟨e, he⟩ := hread
    exact completable_of (argumentsBehind_single (Nat.lt_of_not_le hfull) he)
  · have harg := ((sound n).expression hok).1.spans hread
    refine .accept?_bind (.pure _) fun t c₂ room₂ _ hcomma hroom₂ => ?_
    have hmore : Completes room₂ (ArgumentsBehind (arg :: done).length)
        (Grammar.arguments n (arg :: done)) (Grammar.arguments m (arg :: done)) c₂ :=
      h.arguments (by omega) (by omega)
    exact hmore.mono fun after hafter =>
      completable_of (argumentsBehind_more harg hcomma hafter)

theorem ExpressionsComplete.closed_succ (h : ExpressionsComplete n m) (hn : 16 * room + 1 ≤ n + 1)
    (hm : 16 * room + 1 ≤ m + 1) :
    Completes room (Phrase 9) (Grammar.closed (n + 1)) (Grammar.closed (m + 1)) c := by
  have hs := ExpressionsSettled.settled n m
  have hmissing : Completable (Phrase 9) [] := completable_nil_of (phrase_nil (by decide))
  rw [Grammar.closed, Grammar.closed]
  refine .next?_bind ?_
  cases ht : c.ahead.head? with
  | none => exact .unexpected hmissing
  | some t =>
    dsimp only
    cases t.kind.leaf? t.pos with
    | some e => exact .advance_bind ht fun c₁ room₁ _ _ => .pure e
    | none =>
      by_cases hopen : t.kind = .punct .leftParen
      · rw [if_pos hopen, if_pos hopen]
        have hgroup {inner : Expr} {read : List Token} (hinner : inner.Spans 0 read) {r : Token}
            (hr : r.kind = .punct .rightParen) : Phrase 9 (t :: (read ++ [r])) :=
          ⟨.group inner t.pos, Nat.le_refl _, .group _ hinner.canonical,
            .group hopen hinner.written hr⟩
        refine .advance_bind ht fun c₁ room₁ _ hroom₁ => ?_
        refine .bind (hs.expression (by omega) (by omega)) (h.expression (by omega) (by omega))
          (fun read hread => ?_) fun inner c₂ read room₂ hok hread hroom₂ => ?_
        · obtain ⟨inner, hinner⟩ := hread
          exact ⟨[(TokenKind.punct .rightParen).spare], hgroup hinner rfl⟩
        · have hinner := ((sound n).expression hok).1.spans hread
          exact .expect_pure ⟨[(TokenKind.punct .rightParen).spare], hgroup hinner rfl⟩
      · rw [if_neg hopen]
        exact .unexpected hmissing

/-- **What readers of expressions have read where they fail begins an expression**, or a sign of
assignment among it is the first token that is wrong. -/
theorem ExpressionsComplete.completes (n m : Nat) : ExpressionsComplete n m := by
  induction n generalizing m with
  | zero =>
    refine { expression := ?_, operation := ?_, operators := ?_, unary := ?_, calls := ?_,
             arguments := ?_, closed := ?_ }
    all_goals intros; omega
  | succ n ih =>
    cases m with
    | zero =>
      refine { expression := ?_, operation := ?_, operators := ?_, unary := ?_, calls := ?_,
               arguments := ?_, closed := ?_ }
      all_goals intros; omega
    | succ m =>
      have ih := ih m
      exact
        { expression := ih.expression_succ
          operation := fun hlevel => ih.operation_succ hlevel
          operators := fun hleft hbelow => ih.operators_succ hleft hbelow
          unary := ih.unary_succ
          calls := fun hcallee => ih.calls_succ hcallee
          arguments := ih.arguments_succ
          closed := ih.closed_succ }

end Grammar

end Script
