import Script.Proofs.Grammar.Expression.Completeness

/-!
# Reading and flattening

On a stream of tokens, reading an expression and writing one down as its flattening undo each other.

- `Cursor.startingAt`: the cursor at any position of a stream.
- `Cursor.reads_startingAt`, `Cursor.ends_startingAt_iff`: what is read from a position, and what
  stands at it.
- `Expr.parser_inverts_flatten`: what is read from a position is canonical and flattens to what was
  read; what a canonical expression flattens to is read as this expression.
-/

namespace Script

/-! ## Positions of a stream -/

namespace Cursor

/-- The cursor at the position `p` of a stream. What follows the next end of input is not ahead of
it. -/
def startingAt (tokens : List Token) (p : Nat) (stop : Position) : Cursor where
  ahead := (tokens.drop p).takeWhile fun t => !t.kind.isEof
  stop := stop

variable {tokens read : List Token} {p q : Nat} {stop : Position} {c' : Cursor}

/-- Tokens of which none is the end of input are read between their positions. -/
theorem reads_startingAt (stop : Position) (hle : p ≤ q)
    (hread : ∀ t ∈ tokens.extract p q, t.kind.isEof = false) :
    (startingAt tokens p stop).Reads (tokens.extract p q) (startingAt tokens q stop) := by
  refine ⟨?_, rfl⟩
  have hsplit : tokens.drop p = tokens.extract p q ++ tokens.drop q := by
    have htake := List.take_append_drop (q - p) (tokens.drop p)
    rw [List.drop_drop, Nat.add_sub_cancel' hle] at htake
    exact htake.symm
  show (tokens.drop p).takeWhile _ = _ ++ (tokens.drop q).takeWhile _
  rw [hsplit]
  refine List.takeWhile_append_of_pos fun t ht => ?_
  rw [hread t ht]
  rfl

/-- What is read from a position ends at a later one. -/
theorem Reads.exists_startingAt (h : (startingAt tokens p stop).Reads read c') :
    ∃ q, p ≤ q ∧ read = tokens.extract p q ∧ c' = startingAt tokens q stop := by
  have hfirst : read <+: (tokens.drop p).takeWhile fun t => !t.kind.isEof :=
    ⟨c'.ahead, h.ahead.symm⟩
  have hread : read = tokens.extract p (p + read.length) := by
    have htake := List.prefix_iff_eq_take.1 (hfirst.trans (List.takeWhile_prefix _))
    show read = (tokens.drop p).take (p + read.length - p)
    rwa [Nat.add_sub_cancel_left]
  have hnone : ∀ t ∈ tokens.extract p (p + read.length), t.kind.isEof = false := by
    intro t ht
    rw [← hread] at ht
    have hkept := List.all_eq_true.1 List.all_takeWhile t (hfirst.subset ht)
    simpa using hkept
  have hsame := reads_startingAt stop (Nat.le_add_right p read.length) hnone
  rw [← hread] at hsame
  exact ⟨_, Nat.le_add_right _ _, hread, h.unique hsame⟩

/-- An expression also ends in front of the end of input. -/
theorem ends_startingAt_iff :
    (startingAt tokens q stop).Ends ↔ ∀ t, tokens[q]? = some t → t.kind.continues = false := by
  have hhead : (tokens.drop q).head? = tokens[q]? := List.head?_drop
  rw [← hhead]
  show (∀ t, ((tokens.drop q).takeWhile _).head? = some t → _) ↔ _
  cases tokens.drop q with
  | nil => simp
  | cons u rest =>
    cases heof : u.kind.isEof with
    | false => simp [heof]
    | true =>
      constructor
      · intro _ t ht
        obtain rfl := Option.some.inj ht
        rw [TokenKind.isEof_iff.1 heof]
        rfl
      · intro _ t ht
        rw [List.takeWhile_cons_of_neg (by simp [heof])] at ht
        cases ht

end Cursor

namespace Expr

/-! ## Both ways -/

@[simp] theorem isEof_literal (l : Literal) : l.kind.isEof = false := by
  rcases l with _ | _ | (_ | _) | _ <;> rfl

@[simp] theorem isEof_unaryOp (op : UnaryOp) : op.kind.isEof = false := by
  cases op <;> rfl

@[simp] theorem isEof_binaryOp (op : BinaryOp) : op.kind.isEof = false := by
  cases op <;> rfl

@[simp] theorem isEof_logicalOp (op : LogicalOp) : op.kind.isEof = false := by
  cases op <;> rfl

mutual

/-- The end of input is not part of an expression. -/
theorem Written.isEof_eq_false {e : Expr} {read : List Token} (h : e.Written read) :
    ∀ t ∈ read, t.kind.isEof = false := by
  cases h with
  | literal hkind => simp [hkind]
  | ident hkind => simp [hkind, TokenKind.isEof]
  | group hl h hr =>
    simpa [or_imp, forall_and, hl, hr, TokenKind.isEof] using h.isEof_eq_false
  | assign ht heq h => simpa [ht, heq, TokenKind.isEof] using h.isEof_eq_false
  | unary ht h => simpa [ht] using h.isEof_eq_false
  | binary h₁ ht h₂ =>
    simpa [or_imp, forall_and, ht] using ⟨h₁.isEof_eq_false, h₂.isEof_eq_false⟩
  | logical h₁ ht h₂ =>
    simpa [or_imp, forall_and, ht] using ⟨h₁.isEof_eq_false, h₂.isEof_eq_false⟩
  | call h hl hargs hr =>
    simpa [or_imp, forall_and, hl, hr, TokenKind.isEof] using
      ⟨h.isEof_eq_false, hargs.isEof_eq_false⟩

theorem WrittenAll.isEof_eq_false {args : List Expr} {read : List Token}
    (h : WrittenAll args read) : ∀ t ∈ read, t.kind.isEof = false := by
  cases h with
  | none => exact fun t ht => nomatch ht
  | last h => exact h.isEof_eq_false
  | more h ht hargs =>
    simpa [or_imp, forall_and, ht, TokenKind.isEof] using
      ⟨h.isEof_eq_false, hargs.isEof_eq_false⟩

end

/-- **Reading an expression and flattening it are inverse** on every stream and from every position.
What is read is canonical, flattens to the kinds of the tokens that were read, and stops in front of
a token that does not continue it; a canonical expression is read, up to its positions, wherever its
flattening stands in front of such a token. -/
theorem parser_inverts_flatten (tokens : List Token) (p : Nat) (stop : Position) :
    (∀ e c', parser (.startingAt tokens p stop) = .ok e c' →
      e.Canonical ∧ ∃ q, p ≤ q ∧ c' = .startingAt tokens q stop ∧
        e.flatten = (tokens.extract p q).map (·.kind) ∧
        ∀ t, tokens[q]? = some t → t.kind.continues = false) ∧
    (∀ e : Expr, e.Canonical → ∀ q, p ≤ q → e.flatten = (tokens.extract p q).map (·.kind) →
      (∀ t, tokens[q]? = some t → t.kind.continues = false) →
      ∃ e', parser (.startingAt tokens p stop) = .ok e' (.startingAt tokens q stop) ∧
        e'.bare = e.bare) := by
  constructor
  · intro e c' hok
    obtain ⟨read, hread, hcanonical, hwritten, hends⟩ := parser_sound hok
    obtain ⟨q, hle, rfl, rfl⟩ := hread.exists_startingAt
    exact ⟨hcanonical, q, hle, rfl, hwritten.flatten.symm, Cursor.ends_startingAt_iff.1 hends⟩
  · intro e hcanonical q hle hflatten hends
    obtain ⟨e', hwritten, hcanonical', -, hbare⟩ := hcanonical.writable _ hflatten.symm
    have hread := Cursor.reads_startingAt stop hle hwritten.isEof_eq_false
    exact ⟨e', parser_complete hcanonical' hwritten hread (Cursor.ends_startingAt_iff.2 hends),
      hbare⟩

/-- The assignment `a = !b(c)` in front of a semicolon is read up to the semicolon, and its
flattening is read as itself. -/
theorem parser_inverts_flatten_assignment :
    let tokens := [TokenKind.ident "a", .punct .equal, .punct .bang, .ident "b", .punct .leftParen,
      .ident "c", .punct .rightParen, .punct .semicolon, .eof].map (Token.mk · "" .start)
    ∃ e, parser (.startingAt tokens 0 .start) = .ok e (.startingAt tokens 7 .start) ∧
      e.Canonical ∧ ∃ e', parser (.startingAt tokens 0 .start) =
        .ok e' (.startingAt tokens 7 .start) ∧ e'.bare = e.bare := by
  intro tokens
  have hok : parser (.startingAt tokens 0 .start) = .ok
      (.assign "a" (.unary .not (.call (.ident "b" .start) [.ident "c" .start] .start) .start)
        .start) (.startingAt tokens 7 .start) := rfl
  obtain ⟨hcanonical, -⟩ := (parser_inverts_flatten tokens 0 .start).1 _ _ hok
  refine ⟨_, hok, hcanonical, ?_⟩
  refine (parser_inverts_flatten tokens 0 .start).2 _ hcanonical 7 (by decide) rfl ?_
  intro t ht
  obtain rfl := Option.some.inj ht
  rfl

end Expr

end Script
