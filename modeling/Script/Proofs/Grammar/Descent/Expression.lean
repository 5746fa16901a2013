import Script.Proofs.Grammar.Descent.Agreement
import Script.Proofs.Grammar.Expression.Soundness

/-!
# Levels one inside the other

The readers of expressions come back in front of any tokens. Between one token and the next a reader
calls others only down the levels of the grammar, so their depth is bounded by the number of tokens
ahead and the level; the budget of the readers of a cursor is such a bound, and by it everything is
shown. Operators are read there in one loop for all levels. Here there is a loop for each level, one
inside the other, and the loops together do what the one loop does, since behind an operand the next
operator binds looser than the level that has read the operand.

- `Descent.tiers`: the loops of the tightest levels, one behind the other.
- `tiers_of_looser`, `tiers_of_operator`: what they do, by the next token.
- `ExpressionsAgree.agree`: all readers of expressions.
-/

namespace Script

namespace Grammar

open Script.Parser

/-- Behind operands and operators the next operator binds looser. -/
theorem operators_below (n : Nat) {level : Nat} {left e : Expr} {c c' : Cursor}
    (h : operators n level left c = .ok e c') : c'.Below level := by
  induction n generalizing left c with
  | zero => exact (unexpected_ne_ok h).elim
  | succ n ih =>
    rcases operators_succ_iff.1 h with ⟨hbelow, rfl, rfl⟩ | ⟨t, op, c₁, right, c₂, -, -, -, -, h⟩
    · exact hbelow
    · exact ih h

theorem operation_below (n : Nat) {level : Nat} {e : Expr} {c c' : Cursor}
    (h : operation n level c = .ok e c') : c'.Below level := by
  cases n with
  | zero => exact (unexpected_ne_ok h).elim
  | succ n =>
    obtain ⟨left, c₁, -, h⟩ := operation_succ_iff.1 h
    exact operators_below n h

end Grammar

namespace Descent

variable {n k level : Nat} {left : Expr} {t t₁ : Tape} {op : Operator}

/-! ## The loops of several levels -/

/-- What follows the operand `left` at the given number of levels, counted from the tightest: the
loop of each level behind those of the tighter levels. -/
def tiers : Nat → Expr → Descent Expr
  | 0, left => pure left
  | k + 1, left => tiers k left >>= fun e => (ExprGoal.operators k e).read

theorem operation_eq (k : Nat) :
    (ExprGoal.operation k).read = ExprGoal.unary.read >>= tiers k := by
  induction k with
  | zero =>
    rw [ExprGoal.read]
    exact (bind_pure ExprGoal.unary.read).symm
  | succ k ih =>
    rw [ExprGoal.read, ih, bind_assoc]
    rfl

theorem ne_eof_of_operator (hop : t.next.kind.operator? = some op) : t.next.kind ≠ .eof := by
  intro hend
  rw [hend] at hop
  cases hop

/-- If the next token is an operator, it binds looser than the tightest `k` levels. -/
def Looser (k : Nat) (t : Tape) : Prop :=
  ∀ op, t.next.kind.operator? = some op → op.level + k < 7

theorem looser_iff_below (hk : k + level = 7) : Looser k t ↔ t.cursor.Below level := by
  constructor
  · intro h u op hu hop
    rw [head?_cursor] at hu
    split at hu
    · cases hu
    · obtain rfl := Option.some.inj hu
      have := h op hop
      omega
  · intro h op hop
    have := h t.next op (Tape.reads_advance (ne_eof_of_operator hop)).head? hop
    omega

theorem operators_of_ne (h : ∀ op, t.next.kind.operator? = some op → op.level + k ≠ 6) :
    (ExprGoal.operators k left).read t = some (.ok left, t) := by
  rw [ExprGoal.read, next_bind_eq]
  cases hop : t.next.kind.operator? with
  | none => rfl
  | some op =>
    dsimp only
    rw [if_neg (h op hop)]
    rfl

theorem operators_of_eq (hop : t.next.kind.operator? = some op) (hlevel : op.level + k = 6) :
    (ExprGoal.operators k left).read t =
      ((ExprGoal.operation k).read >>= fun right =>
        (ExprGoal.operators k (op.join left right t.next.pos)).read) t.advance := by
  rw [ExprGoal.read, next_bind_eq, hop]
  dsimp only
  rw [if_pos hlevel]
  rfl

/-- The loops read nothing in front of an operator that binds looser. -/
theorem tiers_of_looser (h : Looser k t) : tiers k left t = some (.ok left, t) := by
  induction k with
  | zero => rfl
  | succ k ih =>
    have htighter : tiers k left t = some (.ok left, t) := ih fun op hop => by
      have := h op hop
      omega
    rw [tiers, bind_of_ok htighter]
    refine operators_of_ne fun op hop => ?_
    have := h op hop
    omega

/-- In front of an operator of the level `j`, what follows it is read first, and then the same loops
go on. -/
theorem tiers_of_operator (left : Expr) {j : Nat} (hop : t.next.kind.operator? = some op)
    (hj : op.level + j = 6) (hk : j < k)
    (hright : ∀ right t₁, (ExprGoal.operation j).read t.advance = some (.ok right, t₁) →
      Looser j t₁) :
    tiers k left t =
      ((ExprGoal.operation j).read >>= fun right =>
        tiers k (op.join left right t.next.pos)) t.advance := by
  induction k with
  | zero => omega
  | succ k ih =>
    rw [tiers]
    rcases Nat.lt_succ_iff_lt_or_eq.1 hk with hless | rfl
    · rw [bind_congr_left (ih hless), bind_assoc]
      rfl
    · have htighter : tiers j left t = some (.ok left, t) := tiers_of_looser fun op' hop' => by
        rw [hop] at hop'
        cases hop'
        omega
      rw [bind_of_ok htighter, operators_of_eq hop hj]
      refine bind_congr_right fun right t₁ h => ?_
      have hnext : tiers j (op.join left right t.next.pos) t₁ = _ :=
        tiers_of_looser (hright right t₁ h)
      rw [tiers, bind_of_ok hnext]

/-- The one loop for all levels reads an operator that binds tightly enough. -/
theorem operators_cursor_of_operator (hop : t.next.kind.operator? = some op)
    (hlevel : level ≤ op.level) :
    Grammar.operators (n + 1) level left t.cursor =
      (Parser.advance >>= fun _ => Grammar.operation n (op.level + 1) >>= fun right =>
        Grammar.operators n level (op.join left right t.next.pos)) t.cursor := by
  rw [Grammar.operators, Parser.next?_bind_eq, head?_cursor, if_neg (ne_eof_of_operator hop)]
  dsimp only
  rw [hop]
  dsimp only
  rw [if_neg (Nat.not_lt_of_le hlevel)]

/-! ## The readers -/

/-- The readers of expressions come back, as those with the budget `n` do, if it allows for the
tokens ahead. -/
structure ExpressionsAgree (n : Nat) : Prop where
  expression {t : Tape} (hn : 16 * t.left + 4 ≤ n) :
    Agrees 1 ExprGoal.expression.read (Grammar.expression n) t
  operation {k level : Nat} (hk : k + level = 7) {t : Tape} (hn : 16 * t.left + 3 ≤ n) :
    Agrees 1 (ExprGoal.operation k).read (Grammar.operation n level) t
  tiers {k level : Nat} (hk : k + level = 7) (left : Expr) {t : Tape} (hn : 16 * t.left + 1 ≤ n) :
    Agrees 0 (Descent.tiers k left) (Grammar.operators n level left) t
  unary {t : Tape} (hn : 16 * t.left + 2 ≤ n) : Agrees 1 ExprGoal.unary.read (Grammar.unary n) t
  calls (callee : Expr) {t : Tape} (hn : 16 * t.left + 1 ≤ n) :
    Agrees 0 (ExprGoal.calls callee).read (Grammar.calls n callee) t
  arguments (done : List Expr) {t : Tape} (hn : 16 * t.left + 5 ≤ n) :
    Agrees 1 (ExprGoal.arguments done).read (Grammar.arguments n done) t
  closed {t : Tape} (hn : 16 * t.left + 1 ≤ n) : Agrees 1 ExprGoal.closed.read (Grammar.closed n) t

theorem ExpressionsAgree.expression_succ (h : ExpressionsAgree n)
    (hn : 16 * t.left + 4 ≤ n + 1) :
    Agrees 1 ExprGoal.expression.read (Grammar.expression (n + 1)) t := by
  rw [ExprGoal.read, Grammar.expression]
  refine (h.operation (by omega) (by omega)).bind fun target t₁ hless _ => ?_
  refine .accept?_bind rfl (.pure target) fun pos t₂ hless₂ => ?_
  refine ((h.expression (by omega)).bind fun value t₃ _ _ => ?_).weaken
  cases target with
  | ident name start => exact .pure _
  | _ => exact .failAt

theorem ExpressionsAgree.tiers_succ (h : ExpressionsAgree n) (hk : k + level = 7) (left : Expr)
    (hn : 16 * t.left + 1 ≤ n + 1) :
    Agrees 0 (Descent.tiers k left) (Grammar.operators (n + 1) level left) t := by
  by_cases hlooser : Looser k t
  · have hbelow := (looser_iff_below hk).1 hlooser
    have hdone : Grammar.operators (n + 1) level left t.cursor = .ok left t.cursor :=
      Grammar.operators_succ_iff.2 (.inl ⟨hbelow, rfl, rfl⟩)
    exact .of_ok (tiers_of_looser hlooser) hdone (.refl t) (Nat.le_refl _)
  · obtain ⟨op, hop, hlevel⟩ : ∃ op, t.next.kind.operator? = some op ∧ 7 ≤ op.level + k := by
      simpa [Looser] using hlooser
    have hmore := ne_eof_of_operator hop
    obtain ⟨j, hj⟩ : ∃ j, op.level + j = 6 := ⟨6 - op.level, by have := op.level_le; omega⟩
    have hoperand (t₁ : Tape) (hless : t₁.left < t.left) :
        Agrees 1 (ExprGoal.operation j).read (Grammar.operation n (op.level + 1)) t₁ :=
      h.operation (by omega) (by omega)
    -- behind the operand no operator of its level is next
    have hnext (right : Expr) (t₁ : Tape)
        (hread : (ExprGoal.operation j).read t.advance = some (.ok right, t₁)) : Looser j t₁ := by
      have hright := (hoperand t.advance (left_advance hmore)).eq_ok hread
      exact (looser_iff_below (by omega)).2 (Grammar.operation_below n hright)
    have hloops : Descent.tiers k left t =
        (advance >>= fun _ => (ExprGoal.operation j).read >>= fun right =>
          Descent.tiers k (op.join left right t.next.pos)) t :=
      tiers_of_operator left hop hj (by omega) hnext
    refine (Agrees.advance_bind hmore fun t₁ hless => ?_).weaken.congr hloops
      (operators_cursor_of_operator hop (by omega))
    refine ((hoperand t₁ hless).bind fun right t₂ hless₂ _ => ?_).weaken
    exact h.tiers hk (op.join left right t.next.pos) (by omega)

/-- At an end of input there is no operand. -/
theorem closed_of_end (hend : t.next.kind = .eof) : ExprGoal.closed.read t = unexpected t := by
  rw [ExprGoal.read, next_bind_eq, hend]
  rfl

theorem ExpressionsAgree.unary_succ (h : ExpressionsAgree n) (hn : 16 * t.left + 2 ≤ n + 1) :
    Agrees 1 ExprGoal.unary.read (Grammar.unary (n + 1)) t := by
  rw [ExprGoal.read, Grammar.unary]
  refine .next?_bind (fun hend => ?_) fun hmore => ?_
  · rw [hend]
    exact Agrees.unexpected.congr (bind_of_error (closed_of_end hend)) rfl
  · dsimp only
    cases t.next.kind.unaryOp? with
    | some op =>
      refine .advance_bind hmore fun t₁ hless => ?_
      exact ((h.unary (by omega)).bind fun operand t₂ _ _ => .pure _).weaken
    | none =>
      refine (h.closed (by omega)).bind fun callee t₁ hless _ => ?_
      exact h.calls callee (by omega)

theorem ExpressionsAgree.calls_succ (h : ExpressionsAgree n) (callee : Expr)
    (hn : 16 * t.left + 1 ≤ n + 1) :
    Agrees 0 (ExprGoal.calls callee).read (Grammar.calls (n + 1) callee) t := by
  -- what follows the arguments
  have hcall (args : List Expr) (t₁ : Tape) (hless : t₁.left < t.left) :
      Agrees 1
        (do
          let pos ← expect .rightParen .argumentsEnd
          (ExprGoal.calls (.call callee args pos)).read)
        (do
          let pos ← Parser.expect .rightParen .argumentsEnd
          Grammar.calls n (.call callee args pos)) t₁ :=
    .expect_bind fun pos t₂ hless₂ => h.calls (.call callee args pos) (by omega)
  rw [ExprGoal.read, Grammar.calls]
  refine .accept?_bind rfl (.pure callee) fun _ t₁ hless => .nextIs_bind rfl fun empty => .ite ?_ ?_
  · exact (hcall [] t₁ hless).weaken
  · exact ((h.arguments [] (by omega)).bind fun args t₂ hless₂ _ =>
      (hcall args t₂ (by omega)).weaken).weaken

theorem ExpressionsAgree.arguments_succ (h : ExpressionsAgree n) (done : List Expr)
    (hn : 16 * t.left + 5 ≤ n + 1) :
    Agrees 1 (ExprGoal.arguments done).read (Grammar.arguments (n + 1) done) t := by
  rw [ExprGoal.read, Grammar.arguments]
  refine .ite .fail ((h.expression (by omega)).bind fun arg t₁ hless _ => ?_)
  refine .accept?_bind rfl (.pure _) fun _ t₂ hless₂ => ?_
  exact (h.arguments (arg :: done) (by omega)).weaken

theorem ExpressionsAgree.closed_succ (h : ExpressionsAgree n) (hn : 16 * t.left + 1 ≤ n + 1) :
    Agrees 1 ExprGoal.closed.read (Grammar.closed (n + 1)) t := by
  rw [ExprGoal.read, Grammar.closed]
  refine .next?_bind (fun hend => ?_) fun hmore => ?_
  · rw [hend]
    exact .unexpected
  · dsimp only
    cases t.next.kind.leaf? t.next.pos with
    | some e => exact .advance_bind hmore fun t₁ _ => .pure e
    | none =>
      refine .ite (.advance_bind hmore fun t₁ hless => ?_) .unexpected
      exact ((h.expression (by omega)).bind fun inner t₂ _ _ => .expect_pure).weaken

/-- **Without a bound expressions are read as with one that the tokens ahead cannot exhaust.** -/
theorem ExpressionsAgree.agree (n : Nat) : ExpressionsAgree n := by
  induction n with
  | zero =>
    refine { expression := ?_, operation := ?_, tiers := ?_, unary := ?_, calls := ?_,
             arguments := ?_, closed := ?_ }
    all_goals intros; omega
  | succ n ih =>
    exact
      { expression := ih.expression_succ
        operation := fun {k level} hk {t} hn => by
          rw [operation_eq, Grammar.operation]
          refine (ih.unary (by omega)).bind fun left t₁ hless _ => ?_
          exact ih.tiers hk left (by omega)
        tiers := fun hk left => ih.tiers_succ hk left
        unary := ih.unary_succ
        calls := fun callee => ih.calls_succ callee
        arguments := fun done => ih.arguments_succ done
        closed := ih.closed_succ }

end Descent

end Script
