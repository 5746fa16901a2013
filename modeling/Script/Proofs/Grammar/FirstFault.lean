import Mathlib.Data.Finset.Lattice.Fold
import Mathlib.Data.Finset.Range
import Script.Proofs.Grammar.Faults
import Script.Proofs.Grammar.Statement.Completion

/-!
# Which fault is reported

A reader that fails stands behind tokens which a program begins with, or a sign of assignment among
them is wrong: the target of an assignment is judged after its value, so a fault in the value is
reported in its place. The tokens at their numbers are treated here, since the number of the token
at fault tells how much has been read.

- `Endless`: no end of input is part of what a program is written with.
- `BeginsProgram`: some program begins with these tokens.
- `exists_wrong_assignment`: what is wrong where no program begins with the tokens before the fault.
- `parse_error_first`: the fault that is reported is the first, or one in the value behind a wrong
  sign of assignment.
-/

namespace Script

open Script.Derivation Script.Grammar

/-! ## Programs without an end of input -/

/-- None of the tokens is an end of input. -/
def Endless (read : List Token) : Prop := ∀ t ∈ read, t.kind ≠ .eof

variable {read read' : List Token} {t : Token}

@[simp] theorem endless_nil : Endless [] := List.forall_mem_nil _

@[simp] theorem endless_cons : Endless (t :: read) ↔ t.kind ≠ .eof ∧ Endless read :=
  List.forall_mem_cons

@[simp] theorem endless_append : Endless (read ++ read') ↔ Endless read ∧ Endless read' :=
  List.forall_mem_append

mutual

/-- No end of input is part of an expression. -/
theorem Expr.Written.endless {e : Expr} {read : List Token} (h : e.Written read) :
    Endless read := by
  cases h with
  | @literal t l hkind =>
    have hl : l.kind ≠ .eof := by rcases l with _ | _ | (_ | _) | _ <;> simp [Literal.kind]
    simpa [hkind] using hl
  | ident hkind => simp [hkind]
  | group hl h hr => simp [hl, hr, h.endless]
  | assign ht heq h => simp [ht, heq, h.endless]
  | @unary t op operand read ht h =>
    have hop : op.kind ≠ .eof := by cases op <;> simp [UnaryOp.kind]
    simpa [ht, h.endless] using hop
  | @binary t op left right before after hl ht hr =>
    have hop : op.kind ≠ .eof := by cases op <;> simp [BinaryOp.kind]
    simpa [ht, hl.endless, hr.endless] using hop
  | @logical t op left right before after hl ht hr =>
    have hop : op.kind ≠ .eof := by cases op <;> simp [LogicalOp.kind]
    simpa [ht, hl.endless, hr.endless] using hop
  | call h hl hargs hr => simp [hl, hr, h.endless, hargs.endless]

theorem Expr.WrittenAll.endless {args : List Expr} {read : List Token}
    (h : Expr.WrittenAll args read) : Endless read := by
  cases h with
  | none => simp
  | last h => exact h.endless
  | more h ht hargs => simp [ht, h.endless, hargs.endless]

end

theorem Expr.Segment.endless {e : Expr} (h : e.Segment read) : Endless read :=
  (Expr.segment_iff.1 h).2.endless

namespace Derivation

theorem Optional.endless {e : Option Expr} (h : Optional e read) : Endless read := by
  cases h with
  | absent => simp
  | present h => exact h.endless

theorem Declaration.endless {s : Stmt} (h : Declaration s read) : Endless read := by
  cases h with
  | bare hkw ht hsemicolon => simp [hkw, ht, hsemicolon]
  | initialized hkw ht heq h hsemicolon => simp [hkw, ht, heq, hsemicolon, h.endless]

theorem ExpressionStatement.endless {s : Stmt} (h : ExpressionStatement s read) :
    Endless read := by
  cases h with
  | intro h hsemicolon => simp [hsemicolon, h.endless]

theorem Simple.endless {inLoop : Bool} {s : Stmt} (h : Simple inLoop s read) : Endless read := by
  cases h with
  | expression h => exact h.endless
  | print hkw h hsemicolon => simp [hkw, hsemicolon, h.endless]
  | giveBack hkw h hsemicolon => simp [hkw, hsemicolon, h.endless]
  | exitLoop hkw _ hsemicolon => simp [hkw, hsemicolon]
  | nextIteration hkw _ hsemicolon => simp [hkw, hsemicolon]

theorem Parameters.endless {params : List Param} (h : Parameters params read) : Endless read := by
  induction h with
  | none => simp
  | last ht => simp [ht]
  | more ht hcomma _ ih => simp [ht, hcomma, ih]

theorem FirstClause.endless {first : Option Stmt} (h : FirstClause first read) : Endless read := by
  cases h with
  | absent hsemicolon => simp [hsemicolon]
  | declaration h => exact h.endless
  | expression h => exact h.endless

theorem Condition.endless {pos : Position} {e : Expr} (h : Condition pos e read) :
    Endless read := by
  cases h with
  | always => simp
  | given h => exact h.endless

/-- No end of input is part of a program. The induction is on statements, items and lists of items
at once. -/
theorem Items.endless {inLoop : Bool} {ss : List Stmt} (h : Items inLoop ss read) :
    Endless read := by
  refine @Items.rec (fun _ _ _ read _ => Endless read) (fun _ _ read _ => Endless read)
    (fun _ _ read _ => Endless read) ?simple ?block ?branch ?branches ?whileLoop ?forLoop
    ?declaration ?function ?statement ?nil ?cons _ _ _ h
  case simple =>
    intro _ _ _ h
    exact h.endless
  case block =>
    intro _ _ _ _ _ hl _ hr ih
    simp [hl, hr, ih]
  case branch =>
    intro _ _ _ _ _ _ _ _ _ hkw hl htest hr _ ih
    simp [hkw, hl, hr, htest.endless, ih]
  case branches =>
    intro _ _ _ _ _ _ _ _ _ _ _ _ hkw hl htest hr _ hels _ ih ih'
    simp [hkw, hl, hr, hels, htest.endless, ih, ih']
  case whileLoop =>
    intro _ _ _ _ _ _ _ _ _ hkw hl htest hr _ ih
    simp [hkw, hl, hr, htest.endless, ih]
  case forLoop =>
    intro _ _ _ _ _ _ _ _ _ _ _ _ _ _ hkw hl hfirst htest hsemicolon hnext hr _ ih
    simp [hkw, hl, hsemicolon, hr, hfirst.endless, htest.endless, hnext.endless, ih]
  case declaration =>
    intro _ _ _ h
    exact h.endless
  case function =>
    intro _ _ _ _ _ _ _ _ _ _ _ _ hkw ht hl hparams _ _ hr hlbrace _ hrbrace ih
    simp [hkw, ht, hl, hr, hlbrace, hrbrace, hparams.endless, ih]
  case statement =>
    intro _ _ _ _ _ ih
    exact ih
  case nil =>
    intro _
    exact endless_nil
  case cons =>
    intro _ _ _ _ _ _ _ ih ih'
    simp [ih, ih']

end Derivation

/-! ## Tokens with which programs begin -/

/-- Some program begins with these tokens. -/
def BeginsProgram (tokens : List Token) : Prop :=
  ∃ behind program, parse (tokens ++ behind) = .ok program

variable {before behind tokens : List Token} {d : Diagnostic}

/-- A program is derived from its tokens wherever they stand. -/
theorem Derivation.Items.moved {ss : List Stmt} (h : Items false ss read)
    (μ : Position → Position) : Items false (ss.map (Stmt.moved μ)) (read.map (Token.moved μ)) := by
  have hread := (Program.parser_eq_ok_iff (c := ⟨read, .start⟩)).2 ⟨h, rfl⟩
  have hmoved := program_carried (μ := μ) (Cursor.budget ⟨read, .start⟩) [] ⟨read, .start⟩
  have hbudget : (Cursor.moved μ ⟨read, .start⟩).budget = Cursor.budget ⟨read, .start⟩ := by
    unfold Cursor.budget Cursor.moved
    rw [List.length_map]
  unfold Program.parser at hread
  rw [hread, ← hbudget] at hmoved
  exact (Program.parser_eq_ok_iff.1 hmoved).1

/-- What can be completed at the numbers of tokens begins a program. -/
theorem beginsProgram_of_completable
    (h : Completable ProgramOf (before.mapIdx Token.numbered)) : BeginsProgram before := by
  obtain ⟨rest, ss, hitems⟩ := h
  let c : Cursor := ⟨before, .start⟩
  have hplaces : (before.mapIdx Token.numbered).map (Token.moved c.place) = before :=
    congrArg Cursor.ahead c.numbered_moved
  have hmoved := hitems.moved c.place
  rw [List.map_append, hplaces] at hmoved
  refine ⟨rest.map (Token.moved c.place) ++ [TokenKind.eof.spare], ss.map (Stmt.moved c.place),
    parse_eq_ok_iff_items.2 ?_⟩
  rw [← List.append_assoc, Cursor.ahead_ofTokens_append hmoved.endless]
  simpa [Cursor.ofTokens, TokenKind.isEof, TokenKind.spare] using hmoved

/-- A stream that a budget which is enough for it does not get through is no program. -/
theorem parse_ne_ok_of_error {n : Nat} {c : Cursor}
    (h : program n [] (Cursor.ofTokens tokens).numbered = .error d c)
    (hn : 16 * (Cursor.ofTokens tokens).numbered.ahead.length + 7 ≤ n) (ps : Program) :
    parse tokens ≠ .ok ps := by
  obtain ⟨c', h⟩ := (program_settled n _ [] hn (enough_le_budget _)).error_self (Nat.le_refl _) h
  have herror : parse tokens = .error ⟨d.fault, (Cursor.ofTokens tokens).place d.pos⟩ :=
    parse_eq_error_iff.2 ⟨d.pos, c', h, rfl⟩
  rw [herror]
  intro hok
  cases hok

/-- Tokens before the end of input are read from the front, at their numbers. -/
theorem exists_reads_numbered (behind : List Token) (h : Endless read) :
    ∃ c, (Cursor.ofTokens (read ++ behind)).numbered.Reads (read.mapIdx Token.numbered) c := by
  have hread : (Cursor.ofTokens (read ++ behind)).Reads read
      ⟨(Cursor.ofTokens behind).ahead, (Cursor.ofTokens (read ++ behind)).stop⟩ :=
    ⟨Cursor.ahead_ofTokens_append h, rfl⟩
  obtain ⟨c, hc, -⟩ := hread.numbered
  exact ⟨c, hc⟩

/-- Where reading a program fails, what has been read can be completed, or is spoiled for streams of
any given size. -/
theorem Program.parser_error_completes {c c₁ : Cursor} (hrun : Program.parser c = .error d c₁)
    (hcode : d.fault.code ≠ "P005") (size : Nat) :
    ∃ read c', c.Reads read c' ∧ d.pos = c'.pos ∧ (Completable ProgramOf read ∨
      ∃ n, 16 * size + 7 ≤ n ∧ Parser.Spoils size ProgramOf (program n []) read) := by
  -- a budget that is enough for this stream and for all of the given size
  obtain ⟨room, hlong, hsize⟩ : ∃ room, c.ahead.length ≤ room ∧ size ≤ room :=
    ⟨max c.ahead.length size, Nat.le_max_left _ _, Nat.le_max_right _ _⟩
  have hmore := program_settled c.budget (16 * room + 7) [] (c := c) (enough_le_budget c) (by omega)
  obtain ⟨c₂, hrun⟩ := hmore.error_self (Nat.le_refl _) hrun
  have hcompletes : Parser.Completes room ProgramOf (program (16 * room + 7) [])
      (program (16 * room + 7) []) c := program_completes _ _ (Nat.le_refl _) (Nat.le_refl _)
  obtain ⟨read, c', hread, hpos, hend⟩ := hcompletes hlong hrun hcode
  refine ⟨read, c', hread, hpos, hend.imp_right fun hspoils => ⟨16 * room + 7, by omega, ?_⟩⟩
  obtain ⟨first, eq, after, hsplit, hkind, hfirst, hfail⟩ := hspoils
  exact ⟨first, eq, after, hsplit, hkind, hfirst, fun e e' he =>
    hfail e e' (Nat.le_trans he hsize)⟩

/-- Where no program begins with the tokens before the one at fault, a sign of assignment among them
is wrong: streams of any given size that begin with the tokens up to it are no programs. -/
theorem exists_spoiled {fault : Fault} {c : Cursor} (hbefore : Endless before)
    (hrun : Program.parser (Cursor.ofTokens (before ++ behind)).numbered =
      .error ⟨fault, ⟨before.length, 0⟩⟩ c)
    (hcode : fault.code ≠ "P005") (hwrong : ¬ BeginsProgram before) (size : Nat) :
    ∃ first eq after, before = first ++ eq :: after ∧ eq.kind = .punct .equal ∧
      BeginsProgram first ∧ ∀ rest ps, (first ++ [eq] ++ rest).length ≤ size →
        parse (first ++ [eq] ++ rest) ≠ .ok ps := by
  obtain ⟨read, c', hread, hpos, hend⟩ := Program.parser_error_completes hrun hcode size
  have hlength : (before.mapIdx Token.numbered).length = read.length := by
    rw [Cursor.numbered_pos hread] at hpos
    rw [List.length_mapIdx]
    exact congrArg Position.line hpos
  obtain ⟨c₁, hsame⟩ := exists_reads_numbered behind hbefore
  obtain ⟨rfl, -⟩ := List.append_inj (hsame.ahead.symm.trans hread.ahead) hlength
  rcases hend with hend | ⟨n, hn, first', eq', after', hsplit, hkind, hfirst, hfail⟩
  · exact absurd (beginsProgram_of_completable hend) hwrong
  obtain ⟨first, rest, rfl, rfl, hrest⟩ := List.mapIdx_eq_append_iff.1 hsplit
  obtain ⟨eq, after, rfl, rfl, -⟩ := List.mapIdx_eq_cons_iff.1 hrest
  have hendless : Endless (first ++ [eq]) := by
    simp only [endless_append, endless_cons] at hbefore
    simpa using ⟨hbefore.1, hbefore.2.1⟩
  refine ⟨first, eq, after, rfl, hkind, beginsProgram_of_completable hfirst,
    fun rest ps hsize => ?_⟩
  have hfew : (Cursor.ofTokens (first ++ [eq] ++ rest)).numbered.ahead.length ≤ size := by
    unfold Cursor.numbered
    rw [List.length_mapIdx]
    exact Nat.le_trans (List.takeWhile_sublist _).length_le hsize
  obtain ⟨e', he⟩ := exists_reads_numbered rest hendless
  rw [List.mapIdx_concat] at he
  obtain ⟨d', e₁, herror⟩ := hfail _ e' hfew (by simpa using he)
  exact parse_ne_ok_of_error herror (by omega) ps

/-- One sign of assignment is wrong for streams of all sizes: there are no more of them than tokens
before the one at fault, so if each were part of a program, all these programs together would be of
a bounded size. -/
theorem exists_wrong_assignment {fault : Fault} {c : Cursor} (hbefore : Endless before)
    (hrun : Program.parser (Cursor.ofTokens (before ++ behind)).numbered =
      .error ⟨fault, ⟨before.length, 0⟩⟩ c)
    (hcode : fault.code ≠ "P005") (hwrong : ¬ BeginsProgram before) :
    ∃ first eq after, before = first ++ eq :: after ∧ eq.kind = .punct .equal ∧
      BeginsProgram first ∧ ¬ BeginsProgram (first ++ [eq]) := by
  have hsize (k : Nat) : ∃ size, BeginsProgram (before.take k) → ∃ rest ps,
      (before.take k ++ rest).length ≤ size ∧ parse (before.take k ++ rest) = .ok ps := by
    by_cases hk : BeginsProgram (before.take k)
    · obtain ⟨rest, ps, hok⟩ := hk
      exact ⟨_, fun _ => ⟨rest, ps, Nat.le_refl _, hok⟩⟩
    · exact ⟨0, fun h => absurd h hk⟩
  choose size hsize using hsize
  obtain ⟨first, eq, after, rfl, hkind, hfirst, hfail⟩ :=
    exists_spoiled hbefore hrun hcode hwrong ((Finset.range (before.length + 1)).sup size)
  refine ⟨first, eq, after, rfl, hkind, hfirst, fun hbegins => ?_⟩
  have htake : (first ++ eq :: after).take (first.length + 1) = first ++ [eq] := by
    simp [List.take_append]
  rw [← htake] at hbegins
  obtain ⟨rest, ps, hfew, hok⟩ := hsize _ hbegins
  rw [htake] at hfew hok
  refine hfail rest ps (Nat.le_trans hfew (Finset.le_sup (Finset.mem_range.2 ?_))) hok
  rw [List.length_append, List.length_cons]
  omega

/-- The tokens before the one at fault are before the end of input. -/
theorem endless_take {k : Nat} (hk : k ≤ (Cursor.ofTokens tokens).ahead.length) :
    Endless (tokens.take k) ∧ (tokens.take k).length = k := by
  have hprefix : (Cursor.ofTokens tokens).ahead <+: tokens := List.takeWhile_prefix _
  have htake : tokens.take k = (Cursor.ofTokens tokens).ahead.take k := by
    rw [List.prefix_iff_eq_take.1 hprefix, List.take_take, Nat.min_eq_left hk]
  refine ⟨fun t ht hkind => ?_, List.length_take_of_le (Nat.le_trans hk hprefix.length_le)⟩
  rw [htake] at ht
  have hahead := List.mem_takeWhile_imp (List.mem_of_mem_take ht)
  rw [hkind] at hahead
  cases hahead

/-- **A parse stops at the first fault, or at one in the value of an assignment that is wrong
itself.** Some program begins with the tokens before the one at fault, unless there is a sign of
assignment among them with which no program begins any more. Having too many parameters or
arguments does not count. -/
theorem parse_error_first (herror : parse tokens = .error d) (hcode : d.fault.code ≠ "P005") :
    ∃ k, faultIndex? tokens = some k ∧ (Cursor.ofTokens tokens).place ⟨k, 0⟩ = d.pos ∧
      (BeginsProgram (tokens.take k) ∨ ∃ first eq after, tokens.take k = first ++ eq :: after ∧
        eq.kind = .punct .equal ∧ BeginsProgram first ∧ ¬ BeginsProgram (first ++ [eq])) := by
  obtain ⟨k, c, hk, hrun, hplace⟩ := exists_number_of_fault herror
  refine ⟨k, faultIndex?_eq_some hrun, hplace, or_iff_not_imp_left.2 fun hwrong => ?_⟩
  obtain ⟨hbefore, hlength⟩ := endless_take hk
  rw [← List.take_append_drop k tokens] at hrun
  exact exists_wrong_assignment hbefore (by rwa [hlength]) hcode hwrong

/-- In `print a b;` the fault at `b` is the first: some program begins with `print a`. -/
theorem parse_error_first_missingSemicolon :
    let token (kind : TokenKind) (column : Nat) : Token := ⟨kind, "", ⟨1, column⟩⟩
    let tokens := [token (.keyword .printKw) 1, token (.ident "a") 7, token (.ident "b") 9,
      token (.punct .semicolon) 10, token .eof 11]
    parse tokens = .error ⟨.missing .printEnd, ⟨1, 9⟩⟩ ∧ faultIndex? tokens = some 2 ∧
      BeginsProgram (tokens.take 2) := by
  intro token tokens
  have herror : parse tokens = .error ⟨.missing .printEnd, ⟨1, 9⟩⟩ := rfl
  have hindex : faultIndex? tokens = some 2 := rfl
  obtain ⟨k, hk, -, hfirst⟩ := parse_error_first herror (by decide)
  obtain rfl : 2 = k := Option.some.inj (hindex.symm.trans hk)
  refine ⟨herror, hindex, hfirst.resolve_right ?_⟩
  rintro ⟨first, eq, after, hsplit, hkind, -⟩
  have hmem : eq ∈ tokens.take 2 := by simp [hsplit]
  have hnone : ∀ t ∈ tokens.take 2, t.kind ≠ .punct .equal := by
    simp [tokens, token]
  exact hnone eq hmem hkind

/-- In `1 = 2 = 3;` the second sign of assignment is reported, though no program begins with the
first. -/
theorem parse_error_first_twoAssignments :
    let token (kind : TokenKind) (line column : Nat) : Token := ⟨kind, "", ⟨line, column⟩⟩
    let tokens := [token (.number 1) 1 1, token (.punct .equal) 1 3, token (.number 2) 2 1,
      token (.punct .equal) 2 3, token (.number 3) 2 5, token (.punct .semicolon) 2 6,
      token .eof 2 7]
    parse tokens = .error ⟨.invalidTarget, ⟨2, 3⟩⟩ ∧ faultIndex? tokens = some 3 ∧
      ¬ BeginsProgram (tokens.take 3) := by
  intro token tokens
  refine ⟨rfl, rfl, ?_⟩
  rintro ⟨behind, program, hok⟩
  -- with `1` in front of it, a sign of assignment is refused whatever is behind it
  have hrun : Program.parser (Cursor.ofTokens ([token (.number 1) 1 1] ++
      token (.punct .equal) 1 3 :: [token (.number 2) 2 1])).numbered =
        .error ⟨.invalidTarget, ⟨1, 0⟩⟩ ⟨[], ⟨3, 0⟩⟩ := rfl
  obtain ⟨d, hagain : parse (tokens.take 3 ++ behind) = .error d, -⟩ :=
    parse_error_again (by simp [token]) hrun
  rw [hagain] at hok
  cases hok

end Script
