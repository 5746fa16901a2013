import Script.Proofs.Grammar.Expression.Readers
import Script.Proofs.Grammar.Expression.Spelling

/-!
# What is read is an expression of the grammar

A reader of expressions that succeeds has moved over the tokens that its result is written with, the
result is canonical and binds as tightly as its place asks for, and nothing that could belong to it
follows.

- `Cursor.Ends`: no expression goes on with the next token.
- `Expr.Stands`: an expression between two positions of a cursor.
- `Grammar.Sound`: what the readers promise for one budget; `Grammar.sound` holds for every budget.
-/

namespace Script

/-! ## Where expressions end -/

namespace Cursor

variable {c c' : Cursor} {bound : Nat} {kind : TokenKind}

/-- The next token does not continue an expression. -/
def Ends (c : Cursor) : Prop := ∀ t, c.ahead.head? = some t → t.kind.continues = false

/-- No operator between two operands binds as tightly as one in front of its operand. -/
theorem below_of_le (h : 7 ≤ bound) : c.Below bound := by
  intro t op _ _
  have := op.level_le
  omega

theorem below_of_nextIs (h : c.NextIs kind)
    (hlevel : ∀ op, kind.operator? = some op → op.level < bound) : c.Below bound := by
  obtain ⟨t, ht, rfl⟩ := h
  intro u op hu hop
  obtain rfl := Option.some.inj (ht.symm.trans hu)
  exact hlevel op hop

theorem ends_of_nextIs (h : c.NextIs kind) (hkind : kind.continues = false) : c.Ends := by
  obtain ⟨t, ht, rfl⟩ := h
  intro u hu
  obtain rfl := Option.some.inj (ht.symm.trans hu)
  exact hkind

/-- In front of an expression stands a token that opens expressions. -/
theorem not_nextIs_of_written {e : Expr} {read : List Token} (hw : e.Written read)
    (hread : c.Reads read c') (hkind : kind.opens = false) : ¬ c.NextIs kind := by
  obtain ⟨t, rest, rfl, hopens⟩ := hw.head
  obtain ⟨c₁, ht, -⟩ := hread.cons
  refine (ht.nextIs rfl).ne ?_
  rintro rfl
  exact Bool.false_ne_true (hkind.symm.trans hopens)

theorem not_nextIs_of_writtenAll {e : Expr} {args : List Expr} {read : List Token}
    (hw : Expr.WrittenAll (e :: args) read) (hread : c.Reads read c')
    (hkind : kind.opens = false) : ¬ c.NextIs kind := by
  cases hw with
  | last hw => exact not_nextIs_of_written hw hread hkind
  | more hw _ _ =>
    obtain ⟨c₁, hread, -⟩ := hread.append
    exact not_nextIs_of_written hw hread hkind

/-- An expression ends where no call, no assignment and no operator follows. -/
theorem ends_iff :
    c.Ends ↔ ¬ c.NextIs (.punct .leftParen) ∧ ¬ c.NextIs (.punct .equal) ∧ c.Below 1 := by
  constructor
  · intro h
    refine ⟨?_, ?_, ?_⟩
    · rintro ⟨t, ht, hkind⟩
      have hcontinues := TokenKind.continues_iff.2 (.inl hkind)
      rw [h t ht] at hcontinues
      cases hcontinues
    · rintro ⟨t, ht, hkind⟩
      have hcontinues := TokenKind.continues_iff.2 (.inr (.inl hkind))
      rw [h t ht] at hcontinues
      cases hcontinues
    · intro t op ht hop
      have hcontinues := TokenKind.continues_iff.2 (.inr (.inr ⟨op, hop⟩))
      rw [h t ht] at hcontinues
      cases hcontinues
  · rintro ⟨hcall, hassign, hbelow⟩ t ht
    refine Bool.eq_false_iff.2 fun hcontinues => ?_
    rcases TokenKind.continues_iff.1 hcontinues with hkind | hkind | ⟨op, hop⟩
    · exact hcall ⟨t, ht, hkind⟩
    · exact hassign ⟨t, ht, hkind⟩
    · have := hbelow t op ht hop
      have := op.level_pos
      omega

end Cursor

/-! ## Expressions between two positions -/

/-- From `c` to `c'` stands a canonical expression that binds at least as tightly as `rung`. -/
structure Expr.Stands (e : Expr) (rung : Nat) (c c' : Cursor) : Prop where
  rung_le : rung ≤ e.rung
  canonical : e.Canonical
  written : ∃ read, c.Reads read c' ∧ e.Written read

namespace Grammar

open Script.Parser

variable {n level : Nat} {c c₀ c₁ c' : Cursor} {e left right callee : Expr}
  {done args : List Expr} {t : Token} {op : Operator}

/-- What the readers of expressions promise if they succeed within the budget `n`. -/
structure Sound (n : Nat) : Prop where
  expression : ∀ {c c' e}, expression n c = .ok e c' → e.Stands 0 c c' ∧ c'.Ends
  operation : ∀ {level c c' e}, level ≤ 7 → operation n level c = .ok e c' →
    e.Stands level c c' ∧ ¬ c'.NextIs (.punct .leftParen) ∧ c'.Below level
  operators : ∀ {level c₀ c c' left e}, left.Stands level c₀ c →
    ¬ c.NextIs (.punct .leftParen) → c.Below (left.rung + 1) →
    operators n level left c = .ok e c' →
    e.Stands level c₀ c' ∧ ¬ c'.NextIs (.punct .leftParen) ∧ c'.Below level
  unary : ∀ {c c' e}, unary n c = .ok e c' →
    e.Stands 7 c c' ∧ ¬ c'.NextIs (.punct .leftParen)
  calls : ∀ {c₀ c c' callee e}, callee.Stands 8 c₀ c → calls n callee c = .ok e c' →
    e.Stands 8 c₀ c' ∧ ¬ c'.NextIs (.punct .leftParen)
  arguments : ∀ {c c' done args}, arguments n done c = .ok args c' →
    ∃ more read, done.reverse ++ more = args ∧ args.length ≤ maxArity ∧ c.Reads read c' ∧
      more ≠ [] ∧ Expr.WrittenAll more read ∧ ∀ arg ∈ more, arg.Canonical
  closed : ∀ {c c' e}, closed n c = .ok e c' → e.Stands 9 c c'

/-- Without a budget nothing is read. -/
theorem sound_zero : Sound 0 where
  expression h := (unexpected_ne_ok h).elim
  operation _ h := (unexpected_ne_ok h).elim
  operators _ _ _ h := (unexpected_ne_ok h).elim
  unary h := (unexpected_ne_ok h).elim
  calls _ h := (unexpected_ne_ok h).elim
  arguments h := (unexpected_ne_ok h).elim
  closed h := (unexpected_ne_ok h).elim

theorem sound_expression (h : Sound n) (hok : expression (n + 1) c = .ok e c') :
    e.Stands 0 c c' ∧ c'.Ends := by
  obtain ⟨target, c₁, htarget, hrest⟩ := expression_succ_iff.1 hok
  obtain ⟨hstands, hcall, hbelow⟩ := h.operation (by decide) htarget
  rcases hrest with ⟨hequal, rfl, rfl⟩ | ⟨t, c₂, name, start, value, ht, hkind, rfl, hvalue, rfl⟩
  · exact ⟨⟨Nat.zero_le _, hstands.canonical, hstands.written⟩,
      Cursor.ends_iff.2 ⟨hcall, hequal, hbelow⟩⟩
  · obtain ⟨hvalue, hends⟩ := h.expression hvalue
    obtain ⟨before, hbefore, hname⟩ := hstands.written
    obtain ⟨read, hread, hwritten⟩ := hvalue.written
    cases hname with
    | @ident u _ hname =>
      refine ⟨⟨Nat.zero_le _, .assign _ _ hvalue.canonical, u :: t :: read, ?_, ?_⟩, hends⟩
      · exact hbefore.trans (ht.trans hread)
      · exact .assign hname hkind hwritten

theorem sound_operation (h : Sound n) (hlevel : level ≤ 7)
    (hok : operation (n + 1) level c = .ok e c') :
    e.Stands level c c' ∧ ¬ c'.NextIs (.punct .leftParen) ∧ c'.Below level := by
  obtain ⟨left, c₁, hleft, hrest⟩ := operation_succ_iff.1 hok
  obtain ⟨hstands, hcall⟩ := h.unary hleft
  have hbelow : c₁.Below (left.rung + 1) := by
    have := hstands.rung_le
    exact Cursor.below_of_le (by omega)
  exact h.operators ⟨Nat.le_trans hlevel hstands.rung_le, hstands.canonical, hstands.written⟩ hcall
    hbelow hrest

/-- An operator joins what stands in front of it with what stands behind it. -/
theorem stands_join (hleft : left.Stands level c₀ c) (ht : c.Reads [t] c₁)
    (hop : t.kind.operator? = some op) (hlevel : level ≤ op.level) (hlevel' : op.level ≤ left.rung)
    (hright : right.Stands (op.level + 1) c₁ c') :
    (op.join left right t.pos).Stands level c₀ c' := by
  obtain ⟨before, hbefore, hwl⟩ := hleft.written
  obtain ⟨after, hafter, hwr⟩ := hright.written
  refine ⟨?_, hleft.canonical.join hlevel' hright.canonical hright.rung_le _, before ++ t :: after,
    hbefore.trans (ht.trans hafter), hwl.join (TokenKind.operator?_eq_some_iff.1 hop) hwr⟩
  rw [Expr.rung_join]
  exact hlevel

theorem sound_operators (h : Sound n) (hleft : left.Stands level c₀ c)
    (hcall : ¬ c.NextIs (.punct .leftParen)) (hbelow : c.Below (left.rung + 1))
    (hok : operators (n + 1) level left c = .ok e c') :
    e.Stands level c₀ c' ∧ ¬ c'.NextIs (.punct .leftParen) ∧ c'.Below level := by
  rcases operators_succ_iff.1 hok with
    ⟨hbelow', rfl, rfl⟩ | ⟨t, op, c₁, right, c₂, ht, hop, hlevel, hright, hrest⟩
  · exact ⟨hleft, hcall, hbelow'⟩
  · have hlevel' : op.level ≤ left.rung := Nat.le_of_lt_succ (hbelow t op ht.head? hop)
    obtain ⟨hright, hcall', hbelow'⟩ := h.operation (Nat.succ_le_succ op.level_le) hright
    -- what was read so far is the left operand of what follows
    refine h.operators (stands_join hleft ht hop hlevel hlevel' hright) hcall' ?_ hrest
    rw [Expr.rung_join]
    exact hbelow'

theorem sound_unary (h : Sound n) (hok : unary (n + 1) c = .ok e c') :
    e.Stands 7 c c' ∧ ¬ c'.NextIs (.punct .leftParen) := by
  rcases unary_succ_iff.1 hok with
    ⟨t, op, c₁, operand, ht, hop, hoperand, rfl⟩ | ⟨t, callee, c₁, -, -, hcallee, hcalls⟩
  · obtain ⟨hstands, hcall⟩ := h.unary hoperand
    obtain ⟨read, hread, hwritten⟩ := hstands.written
    have hkind := TokenKind.unaryOp?_eq_some_iff.1 hop
    exact ⟨⟨Nat.le_refl _, .unary _ _ hstands.canonical hstands.rung_le, t :: read, ht.trans hread,
      .unary hkind hwritten⟩, hcall⟩
  · have hclosed := h.closed hcallee
    obtain ⟨hstands, hcall⟩ := h.calls ⟨Nat.le_of_succ_le hclosed.rung_le, hclosed.canonical,
      hclosed.written⟩ hcalls
    exact ⟨⟨Nat.le_of_succ_le hstands.rung_le, hstands.canonical, hstands.written⟩, hcall⟩

/-- An argument list, which may be empty. -/
theorem sound_argumentList (h : Sound n)
    (hok : Omissible (.punct .rightParen) [] (arguments n []) c args c') :
    ∃ read, c.Reads read c' ∧ Expr.WrittenAll args read ∧ (∀ arg ∈ args, arg.Canonical) ∧
      args.length ≤ maxArity := by
  rcases hok with ⟨-, rfl, rfl⟩ | ⟨-, hok⟩
  · exact ⟨[], .refl c, .none, fun arg harg => (nomatch harg), by decide⟩
  · obtain ⟨more, read, rfl, hlength, hread, -, hwritten, hcanonical⟩ := h.arguments hok
    exact ⟨read, hread, hwritten, hcanonical, hlength⟩

theorem sound_calls (h : Sound n) (hcallee : callee.Stands 8 c₀ c)
    (hok : calls (n + 1) callee c = .ok e c') :
    e.Stands 8 c₀ c' ∧ ¬ c'.NextIs (.punct .leftParen) := by
  rcases calls_succ_iff.1 hok with
    ⟨hcall, rfl, rfl⟩ | ⟨l, c₁, args, c₂, r, c₃, hl, hkind, hargs, hr, hkind', hrest⟩
  · exact ⟨hcallee, hcall⟩
  · obtain ⟨before, hbefore, hwritten⟩ := hcallee.written
    obtain ⟨read, hread, hargs, hcanonical, hlength⟩ := sound_argumentList h hargs
    refine h.calls ⟨Nat.le_refl _, .call _ hcallee.canonical hcallee.rung_le hcanonical hlength,
      before ++ l :: (read ++ [r]), ?_, .call hwritten hkind hargs hkind'⟩ hrest
    exact hbefore.trans (hl.trans (hread.trans hr))

theorem sound_arguments (h : Sound n) (hok : arguments (n + 1) done c = .ok args c') :
    ∃ more read, done.reverse ++ more = args ∧ args.length ≤ maxArity ∧ c.Reads read c' ∧
      more ≠ [] ∧ Expr.WrittenAll more read ∧ ∀ arg ∈ more, arg.Canonical := by
  obtain ⟨hroom, arg, c₁, harg, hrest⟩ := arguments_succ_iff.1 hok
  obtain ⟨hstands, -⟩ := h.expression harg
  obtain ⟨before, hbefore, hwritten⟩ := hstands.written
  rcases hrest with ⟨-, rfl, rfl⟩ | ⟨t, c₂, ht, hkind, hrest⟩
  · refine ⟨[arg], before, by simp, ?_, hbefore, by simp, .last hwritten, ?_⟩
    · simpa using Nat.succ_le_of_lt hroom
    · intro a ha
      obtain rfl := List.mem_singleton.1 ha
      exact hstands.canonical
  · obtain ⟨more, after, rfl, hlength, hafter, hne, hwrittens, hcanonical⟩ := h.arguments hrest
    cases more with
    | nil => exact absurd rfl hne
    | cons a more =>
      refine ⟨arg :: a :: more, before ++ t :: after, by simp, hlength, ?_, by simp,
        .more hwritten hkind hwrittens, ?_⟩
      · exact hbefore.trans (ht.trans hafter)
      · exact List.forall_mem_cons.2 ⟨hstands.canonical, hcanonical⟩

theorem sound_closed (h : Sound n) (hok : closed (n + 1) c = .ok e c') :
    e.Stands 9 c c' := by
  rcases closed_succ_iff.1 hok with
    ⟨t, ht, hleaf⟩ | ⟨l, c₁, inner, c₂, r, hl, hkind, hinner, hr, hkind', rfl⟩
  · rcases TokenKind.leaf?_eq_some_iff.1 hleaf with ⟨l, hkind, rfl⟩ | ⟨name, hkind, rfl⟩
    · exact ⟨Nat.le_refl _, .literal .., [t], ht, .literal hkind⟩
    · exact ⟨Nat.le_refl _, .ident .., [t], ht, .ident hkind⟩
  · obtain ⟨hstands, -⟩ := h.expression hinner
    obtain ⟨read, hread, hwritten⟩ := hstands.written
    exact ⟨Nat.le_refl _, .group _ hstands.canonical, l :: (read ++ [r]),
      hl.trans (hread.trans hr), .group hkind hwritten hkind'⟩

/-- **Readers of expressions are sound**, whatever their budget. -/
theorem sound (n : Nat) : Sound n := by
  induction n with
  | zero => exact sound_zero
  | succ n ih =>
    exact
      { expression := sound_expression ih
        operation := sound_operation ih
        operators := sound_operators ih
        unary := sound_unary ih
        calls := sound_calls ih
        arguments := sound_arguments ih
        closed := sound_closed ih }

end Grammar

end Script
