import Script.Grammar.Expression
import Script.Proofs.Grammar.Reading

/-!
# How readers of expressions succeed

Each reader of the expression grammar succeeds in a few ways. They are listed once for every reader,
in terms of the readers that it calls with one unit less of its budget; both directions of the
theory are derived from these lists.

- `Cursor.Below`: how tightly an operator ahead binds.
- `Grammar.expression_succ_iff`, `Grammar.operators_succ_iff`, `Grammar.unary_succ_iff` and the
  like: the ways in which a reader succeeds.
-/

namespace Script

/-- If the next token is an operator between two operands, it binds looser than `bound`. -/
def Cursor.Below (c : Cursor) (bound : Nat) : Prop :=
  ∀ t op, c.ahead.head? = some t → t.kind.operator? = some op → op.level < bound

theorem Cursor.below_iff {c : Cursor} {t : Token} {bound : Nat} (h : c.ahead.head? = some t) :
    c.Below bound ↔ ∀ op, t.kind.operator? = some op → op.level < bound := by
  constructor
  · intro hbelow op hop
    exact hbelow t op h hop
  · intro hbelow u op hu hop
    obtain rfl := Option.some.inj (h.symm.trans hu)
    exact hbelow op hop

namespace Grammar

open Script.Parser

variable {n level : Nat} {c c' : Cursor} {e left callee : Expr} {done args : List Expr}

/-- An expression is an operation, or an assignment to a plain name. -/
theorem expression_succ_iff :
    expression (n + 1) c = .ok e c' ↔
      ∃ target c₁, operation n 1 c = .ok target c₁ ∧
        ((¬ c₁.NextIs (.punct .equal) ∧ target = e ∧ c₁ = c') ∨
          ∃ t c₂ name start value, c₁.Reads [t] c₂ ∧ t.kind = .punct .equal ∧
            target = .ident name start ∧ expression n c₂ = .ok value c' ∧
            .assign name value start = e) := by
  rw [expression, bind_eq_ok_iff]
  refine exists_congr fun target => exists_congr fun c₁ => and_congr_right fun _ => ?_
  rw [accept?_bind_eq_ok_iff]
  refine or_congr (and_congr_right fun _ => pure_eq_ok_iff) ?_
  constructor
  · rintro ⟨t, c₂, ht, hkind, h⟩
    obtain ⟨value, c₃, hvalue, h⟩ := bind_eq_ok_iff.1 h
    -- the value is read before the target is judged
    cases target with
    | ident name start =>
      obtain ⟨rfl, rfl⟩ := pure_eq_ok_iff.1 h
      exact ⟨t, c₂, name, start, value, ht, hkind, rfl, hvalue, rfl⟩
    | _ => exact (failAt_ne_ok h).elim
  · rintro ⟨t, c₂, name, start, value, ht, hkind, rfl, hvalue, rfl⟩
    exact ⟨t, c₂, ht, hkind, bind_eq_ok_iff.2 ⟨value, c', hvalue, rfl⟩⟩

theorem operation_succ_iff :
    operation (n + 1) level c = .ok e c' ↔
      ∃ left c₁, unary n c = .ok left c₁ ∧ operators n level left c₁ = .ok e c' := by
  rw [operation, bind_eq_ok_iff]

/-- Behind an operand, an operator that binds tightly enough takes one more operand. -/
theorem operators_succ_iff :
    operators (n + 1) level left c = .ok e c' ↔
      (c.Below level ∧ left = e ∧ c = c') ∨
        ∃ t op c₁ right c₂, c.Reads [t] c₁ ∧ t.kind.operator? = some op ∧ level ≤ op.level ∧
          operation n (op.level + 1) c₁ = .ok right c₂ ∧
          operators n level (op.join left right t.pos) c₂ = .ok e c' := by
  rw [operators, next?_bind_eq]
  constructor
  · intro h
    cases hhead : c.ahead.head? with
    | none =>
      rw [hhead] at h
      exact .inl ⟨by simp [Cursor.Below, hhead], pure_eq_ok_iff.1 h⟩
    | some t =>
      rw [hhead] at h
      cases hop : t.kind.operator? with
      | none =>
        simp only [hop] at h
        exact .inl ⟨(Cursor.below_iff hhead).2 (by simp [hop]), pure_eq_ok_iff.1 h⟩
      | some op =>
        simp only [hop] at h
        by_cases hlevel : op.level < level
        · rw [if_pos hlevel] at h
          exact .inl ⟨(Cursor.below_iff hhead).2 (by simp [hop, hlevel]), pure_eq_ok_iff.1 h⟩
        · rw [if_neg hlevel] at h
          obtain ⟨c₁, ht, h⟩ := (advance_bind_eq_ok_iff hhead).1 h
          obtain ⟨right, c₂, hright, h⟩ := bind_eq_ok_iff.1 h
          exact .inr ⟨t, op, c₁, right, c₂, ht, hop, Nat.le_of_not_lt hlevel, hright, h⟩
  · rintro (⟨hbelow, rfl, rfl⟩ | ⟨t, op, c₁, right, c₂, ht, hop, hlevel, hright, h⟩)
    · cases hhead : c.ahead.head? with
      | none => rfl
      | some t =>
        cases hop : t.kind.operator? with
        | none => simp [hop]
        | some op => simp [hop, hbelow t op hhead hop]
    · simp only [ht.head?, hop]
      rw [if_neg (Nat.not_lt_of_le hlevel)]
      exact (advance_bind_eq_ok_iff ht.head?).2
        ⟨c₁, ht, bind_eq_ok_iff.2 ⟨right, c₂, hright, h⟩⟩

/-- An operand has an operator in front of it, or is closed with calls behind it. -/
theorem unary_succ_iff :
    unary (n + 1) c = .ok e c' ↔
      (∃ t op c₁ operand, c.Reads [t] c₁ ∧ t.kind.unaryOp? = some op ∧
        unary n c₁ = .ok operand c' ∧ .unary op operand t.pos = e) ∨
      ∃ t callee c₁, c.ahead.head? = some t ∧ t.kind.unaryOp? = none ∧
        closed n c = .ok callee c₁ ∧ calls n callee c₁ = .ok e c' := by
  rw [unary, next?_bind_eq]
  constructor
  · intro h
    cases hhead : c.ahead.head? with
    | none =>
      rw [hhead] at h
      exact (unexpected_ne_ok h).elim
    | some t =>
      rw [hhead] at h
      cases hop : t.kind.unaryOp? with
      | some op =>
        simp only [hop] at h
        obtain ⟨c₁, ht, h⟩ := (advance_bind_eq_ok_iff hhead).1 h
        obtain ⟨operand, c₂, hoperand, h⟩ := bind_eq_ok_iff.1 h
        obtain ⟨rfl, rfl⟩ := pure_eq_ok_iff.1 h
        exact .inl ⟨t, op, c₁, operand, ht, hop, hoperand, rfl⟩
      | none =>
        simp only [hop] at h
        obtain ⟨callee, c₁, hcallee, h⟩ := bind_eq_ok_iff.1 h
        exact .inr ⟨t, callee, c₁, rfl, hop, hcallee, h⟩
  · rintro (⟨t, op, c₁, operand, ht, hop, hoperand, rfl⟩ | ⟨t, callee, c₁, hhead, hop, hcallee, h⟩)
    · simp only [ht.head?, hop]
      exact (advance_bind_eq_ok_iff ht.head?).2
        ⟨c₁, ht, bind_eq_ok_iff.2 ⟨operand, c', hoperand, rfl⟩⟩
    · simp only [hhead, hop]
      exact bind_eq_ok_iff.2 ⟨callee, c₁, hcallee, h⟩

/-- Behind what can be called, an argument list makes a call. -/
theorem calls_succ_iff :
    calls (n + 1) callee c = .ok e c' ↔
      (¬ c.NextIs (.punct .leftParen) ∧ callee = e ∧ c = c') ∨
        ∃ l c₁ args c₂ r c₃, c.Reads [l] c₁ ∧ l.kind = .punct .leftParen ∧
          Omissible (.punct .rightParen) [] (arguments n []) c₁ args c₂ ∧
          c₂.Reads [r] c₃ ∧ r.kind = .punct .rightParen ∧
          calls n (.call callee args r.pos) c₃ = .ok e c' := by
  rw [calls, accept?_bind_eq_ok_iff]
  refine or_congr (and_congr_right fun _ => pure_eq_ok_iff) ?_
  simp only [omissible_bind_eq_ok_iff, expect_bind_eq_ok_iff]
  constructor
  · rintro ⟨l, c₁, hl, hopen, args, c₂, hargs, r, c₃, hr, hclose, h⟩
    exact ⟨l, c₁, args, c₂, r, c₃, hl, hopen, hargs, hr, hclose, h⟩
  · rintro ⟨l, c₁, args, c₂, r, c₃, hl, hopen, hargs, hr, hclose, h⟩
    exact ⟨l, c₁, hl, hopen, args, c₂, hargs, r, c₃, hr, hclose, h⟩

/-- There is room for one more argument, which is the last or has a comma behind it. -/
theorem arguments_succ_iff :
    arguments (n + 1) done c = .ok args c' ↔
      done.length < maxArity ∧ ∃ arg c₁, expression n c = .ok arg c₁ ∧
        ((¬ c₁.NextIs (.punct .comma) ∧ (arg :: done).reverse = args ∧ c₁ = c') ∨
          ∃ t c₂, c₁.Reads [t] c₂ ∧ t.kind = .punct .comma ∧
            arguments n (arg :: done) c₂ = .ok args c') := by
  rw [arguments, ite_fail_eq_ok_iff, Nat.not_le]
  refine and_congr_right fun _ => ?_
  rw [bind_eq_ok_iff]
  refine exists_congr fun arg => exists_congr fun c₁ => and_congr_right fun _ => ?_
  rw [accept?_bind_eq_ok_iff]
  exact or_congr (and_congr_right fun _ => pure_eq_ok_iff) Iff.rfl

/-- A closed expression is a single token or stands in parentheses. -/
theorem closed_succ_iff :
    closed (n + 1) c = .ok e c' ↔
      (∃ t, c.Reads [t] c' ∧ t.kind.leaf? t.pos = some e) ∨
      ∃ l c₁ inner c₂ r, c.Reads [l] c₁ ∧ l.kind = .punct .leftParen ∧
        expression n c₁ = .ok inner c₂ ∧ c₂.Reads [r] c' ∧ r.kind = .punct .rightParen ∧
        .group inner l.pos = e := by
  rw [closed, next?_bind_eq]
  constructor
  · intro h
    cases hhead : c.ahead.head? with
    | none =>
      rw [hhead] at h
      exact (unexpected_ne_ok h).elim
    | some t =>
      rw [hhead] at h
      cases hleaf : t.kind.leaf? t.pos with
      | some e' =>
        simp only [hleaf] at h
        obtain ⟨c₁, ht, h⟩ := (advance_bind_eq_ok_iff hhead).1 h
        obtain ⟨rfl, rfl⟩ := pure_eq_ok_iff.1 h
        exact .inl ⟨t, ht, hleaf⟩
      | none =>
        simp only [hleaf] at h
        by_cases hopen : t.kind = .punct .leftParen
        · rw [if_pos hopen] at h
          obtain ⟨c₁, ht, h⟩ := (advance_bind_eq_ok_iff hhead).1 h
          obtain ⟨inner, c₂, hinner, h⟩ := bind_eq_ok_iff.1 h
          obtain ⟨r, hr, hclose, rfl⟩ := expect_pure_eq_ok_iff.1 h
          exact .inr ⟨t, c₁, inner, c₂, r, ht, hopen, hinner, hr, hclose, rfl⟩
        · rw [if_neg hopen] at h
          exact (unexpected_ne_ok h).elim
  · rintro (⟨t, ht, hleaf⟩ | ⟨l, c₁, inner, c₂, r, hl, hopen, hinner, hr, hclose, rfl⟩)
    · simp only [ht.head?, hleaf]
      exact (advance_bind_eq_ok_iff ht.head?).2 ⟨c', ht, rfl⟩
    · have hleaf : l.kind.leaf? l.pos = none := by
        rw [hopen]
        rfl
      simp only [hl.head?, hleaf]
      rw [if_pos hopen]
      refine (advance_bind_eq_ok_iff hl.head?).2 ⟨c₁, hl, ?_⟩
      refine bind_eq_ok_iff.2 ⟨inner, c₂, hinner, ?_⟩
      exact expect_pure_eq_ok_iff.2 ⟨r, hr, hclose, rfl⟩

end Grammar

end Script
