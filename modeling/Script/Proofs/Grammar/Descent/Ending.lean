import Script.Proofs.Grammar.Descent.Statement
import Script.Proofs.Grammar.Faults

/-!
# Reading ends inside the tokens

Without a bound on its recursion, and on the whole stream with whatever stands behind an end of
input, reading comes back from every place. It never goes back, stands on a token of the stream at
every moment, and never leaves an end of input; so what stands behind the first one is not looked
at. What it gives is what the readers with a budget give.

- `Tape.Keeps`: where a reader may go.
- `Descent.ComesBack`: a reader comes back, and has read something if it succeeds.
- `Cursor.expressions`, `expressions_eq`: expressions one after the other, also behind faults.
- `reading_ends_inside`: all of this for every list of tokens.
-/

namespace Script

/-- How a reader ends: what it gives, and the cursor that it leaves behind, also with a fault. -/
def Parser.ending {α : Type} (p : Parser α) (c : Cursor) : Except Diagnostic α × Cursor :=
  match p c with
  | .ok a c' => (.ok a, c')
  | .error d c' => (.error d, c')

/-- What `n` expressions are that are read one after the other, each from where the one before it
ended. -/
def Cursor.expressions : Nat → Cursor → List (Except Diagnostic Expr) × Cursor
  | 0, c => ([], c)
  | n + 1, c =>
    let first := Parser.ending Expr.parser c
    let rest := Cursor.expressions n first.2
    (first.1 :: rest.1, rest.2)

/-- What stands behind an end of input is not ahead. -/
theorem Cursor.ofTokens_append_end {e : Token} (h : e.kind = .eof) (before behind : List Token) :
    ofTokens (before ++ e :: behind) = ofTokens (before ++ [e]) := by
  have hend : e.kind.isEof = true := TokenKind.isEof_iff.2 h
  unfold ofTokens
  congr 1
  · simp [List.takeWhile_append, hend]
  · rw [List.find?_append, List.find?_append]
    cases before.find? fun u => u.kind.isEof with
    | some u => rfl
    | none => simp [hend]

/-- From `t` reading has come to `t'`: on the same stream, without going back, by leaving every
place on the way once and in turn. It stands on a token of the stream, and not behind the first end
of input unless it was there before. -/
structure Tape.Keeps (t t' : Tape) : Prop where
  same : t'.tokens = t.tokens
  forward : t.pos ≤ t'.pos
  in_turn : t'.passed = (List.range' t.pos (t'.pos - t.pos)).reverse ++ t.passed
  inside : t'.pos < t.tokens.length
  not_behind : t.pos ≤ t.firstEnd → t'.pos ≤ t.firstEnd

theorem Tape.Reaches.keeps {t t' : Tape} (h : t.Reaches t') : t.Keeps t' where
  same := h.tokens_eq
  forward := h.pos_le
  in_turn := h.passed_eq
  inside := h.tokens_eq ▸ t'.inside
  not_behind := h.pos_le_firstEnd

namespace Descent

variable {α : Type} {least n : Nat} {p : Descent α} {q : Parser α} {t : Tape}

/-! ## Readers come back -/

/-- From `t` the reader `p` comes back with what `q` gives in front of the same tokens, leaving the
same ahead. It has kept to the stream, and has read a token at least if it succeeds. -/
def ComesBack (p : Descent α) (q : Parser α) (t : Tape) : Prop :=
  ∃ t', p t = some ((q.ending t.cursor).1, t') ∧ t'.cursor = (q.ending t.cursor).2 ∧ t.Keeps t' ∧
    ∀ a, (q.ending t.cursor).1 = .ok a → t.pos < t'.pos

theorem Agrees.exists_ending (h : Agrees least p q t) :
    ∃ t', p t = some ((q.ending t.cursor).1, t') ∧ t'.cursor = (q.ending t.cursor).2 ∧
      t.Reaches t' ∧ ∀ a, (q.ending t.cursor).1 = .ok a → t.pos + least ≤ t'.pos := by
  unfold Parser.ending
  rcases h.cases with ⟨a, t', hp, hq, ht, hleast⟩ | ⟨d, t', hp, hq, ht⟩
  · rw [hq]
    exact ⟨t', hp, rfl, ht, fun _ _ => hleast⟩
  · rw [hq]
    refine ⟨t', hp, rfl, ht, fun a h => ?_⟩
    cases h

theorem Agrees.comesBack (h : Agrees 1 p q t) : ComesBack p q t := by
  obtain ⟨t', hp, hahead, ht, hleast⟩ := h.exists_ending
  exact ⟨t', hp, hahead, ht.keeps, hleast⟩

/-- The budget of a cursor allows for the tokens ahead. -/
theorem left_le_budget (t : Tape) : 16 * t.left + 7 ≤ t.cursor.budget := enough_le_budget t.cursor

theorem expression_agrees_always (t : Tape) : Agrees 1 expression Expr.parser t := by
  have hbudget := left_le_budget t
  exact (expression_agrees (by omega)).congr rfl rfl

theorem declaration_agrees_always (inLoop : Bool) (t : Tape) :
    Agrees 1 (declaration inLoop) (Stmt.parser inLoop) t := by
  have hbudget := left_le_budget t
  exact ((StatementsAgree.agree _).declaration inLoop (by omega)).congr rfl rfl

theorem statement_agrees_always (inLoop : Bool) (t : Tape) :
    Agrees 1 (statement inLoop) (fun c => Grammar.statement c.budget inLoop c) t := by
  have hbudget := left_le_budget t
  exact ((StatementsAgree.agree _).statement inLoop (by omega)).congr rfl rfl

theorem program_agrees_always (t : Tape) : Agrees 0 program Program.parser t :=
  (program_agrees _ [] (left_le_budget t)).congr rfl rfl

theorem parse_eq_ending (tokens : List Token) :
    parse tokens = (Parser.ending Program.parser (.ofTokens tokens)).1 := by
  unfold parse Parser.ending
  cases Program.parser (.ofTokens tokens) <;> rfl

/-! ## Expressions one after the other -/

theorem expressions_eq (n : Nat) (t : Tape) :
    ∃ t', expressions n t = some ((t.cursor.expressions n).1, t') ∧
      t'.cursor = (t.cursor.expressions n).2 ∧ t.Reaches t' := by
  induction n generalizing t with
  | zero => exact ⟨t, rfl, rfl, .refl t⟩
  | succ n ih =>
    obtain ⟨t₁, hfirst, hahead, ht₁, -⟩ := (expression_agrees_always t).exists_ending
    obtain ⟨t₂, hrest, hahead₂, ht₂⟩ := ih t₁
    rw [hahead] at hrest hahead₂
    refine ⟨t₂, ?_, hahead₂, ht₁.trans ht₂⟩
    show Option.bind (expression t) _ = _
    rw [hfirst]
    show Option.bind (expressions n t₁) _ = _
    rw [hrest]
    rfl

/-- What expressions are, and where reading them stops, is seen from what is ahead. -/
theorem expressions_congr {u : Tape} (hahead : t.cursor = u.cursor) (hpos : t.pos = u.pos) :
    (expressions n t).map (fun s => (s.1, s.2.pos)) =
      (expressions n u).map fun s => (s.1, s.2.pos) := by
  obtain ⟨t', ht, hleft, htape⟩ := expressions_eq n t
  obtain ⟨u', hu, hleft', hutape⟩ := expressions_eq n u
  have hsum := htape.pos_add_left
  have hsum' := hutape.pos_add_left
  unfold Tape.left at hsum hsum'
  rw [hleft, hahead] at hsum
  rw [hleft'] at hsum'
  have hend : t'.pos = u'.pos := by omega
  rw [ht, hu, hahead]
  simp [hend]

/-! ## Every list of tokens -/

/-- Reading a list of tokens, which may hold anything in any order, comes to its ends inside it. -/
structure ReadingEnds (tokens : List Token) : Prop where
  /-- A program is read or a fault is found, and the result is that of `parse`. -/
  whole : ∃ t, program (.ofTokens tokens) = some (parse tokens, t) ∧
    (Tape.ofTokens tokens).Keeps t
  /-- Expressions are read, as many as one likes, one after the other and also behind faults. -/
  one_by_one : ∀ n, ∃ t, expressions n (.ofTokens tokens) =
      some (((Cursor.ofTokens tokens).expressions n).1, t) ∧ (Tape.ofTokens tokens).Keeps t
  /-- Wherever in the stream an expression, a declaration or a statement is read, the reader comes
  back, behind a token at least if it succeeds. -/
  anywhere : ∀ t : Tape, t.tokens = (Tape.ofTokens tokens).tokens →
    ComesBack expression Expr.parser t ∧
      ∀ inLoop, ComesBack (declaration inLoop) (Stmt.parser inLoop) t ∧
        ComesBack (statement inLoop) (fun c => Grammar.statement c.budget inLoop c) t
  /-- Whatever stands behind an end of input can be dropped or replaced: results and places stay the
  same. -/
  unseen : ∀ before e behind other, tokens = before ++ e :: behind → e.kind = .eof →
    parse (before ++ e :: other) = parse tokens ∧
      ∀ n, (expressions n (.ofTokens (before ++ e :: other))).map (fun s => (s.1, s.2.pos)) =
        (expressions n (.ofTokens tokens)).map fun s => (s.1, s.2.pos)

/-- **Reading always ends, and stays inside the tokens.** -/
theorem reading_ends_inside (tokens : List Token) : ReadingEnds tokens where
  whole := by
    obtain ⟨t, ht, -, hreach, -⟩ := (program_agrees_always (.ofTokens tokens)).exists_ending
    rw [Tape.cursor_ofTokens, ← parse_eq_ending] at ht
    exact ⟨t, ht, hreach.keeps⟩
  one_by_one n := by
    obtain ⟨t, ht, -, hreach⟩ := expressions_eq n (.ofTokens tokens)
    rw [Tape.cursor_ofTokens] at ht
    exact ⟨t, ht, hreach.keeps⟩
  anywhere t _ := ⟨(expression_agrees_always t).comesBack, fun inLoop =>
    ⟨(declaration_agrees_always inLoop t).comesBack, (statement_agrees_always inLoop t).comesBack⟩⟩
  unseen before e behind other htokens hend := by
    subst htokens
    have hsame : Cursor.ofTokens (before ++ e :: other) = .ofTokens (before ++ e :: behind) := by
      rw [Cursor.ofTokens_append_end hend, ← Cursor.ofTokens_append_end hend]
    refine ⟨?_, fun n => expressions_congr ?_ rfl⟩
    · unfold parse
      rw [hsame]
    · rw [Tape.cursor_ofTokens, Tape.cursor_ofTokens, hsame]

/-- An end of input in the middle, behind a name and in front of what would make an assignment of
it; none at the end. -/
def cutShort : List Token :=
  [⟨.ident "x", "x", ⟨1, 1⟩⟩, ⟨.eof, "", ⟨1, 2⟩⟩, ⟨.punct .equal, "=", ⟨1, 4⟩⟩,
    ⟨.ident "y", "y", ⟨1, 6⟩⟩]

theorem reading_ends_inside_cutShort :
    parse cutShort = .error ⟨.missing .expressionEnd, ⟨1, 2⟩⟩ ∧
      ((Cursor.ofTokens cutShort).expressions 3).1 =
        [.ok (.ident "x" ⟨1, 1⟩), .error ⟨.unexpectedToken "end of input", ⟨1, 2⟩⟩,
          .error ⟨.unexpectedToken "end of input", ⟨1, 2⟩⟩] ∧
      (Tape.ofTokens cutShort).firstEnd = 1 ∧ ReadingEnds cutShort :=
  ⟨rfl, rfl, rfl, reading_ends_inside cutShort⟩

end Descent

end Script
