import Script.Proofs.Grammar.Statement.Completeness

/-!
# The programs of the grammar

A stream of tokens is a program exactly if the grammar derives the program from it, and it is at
most one program.

- `Program.parser_eq_ok_iff`: the reader of programs and the grammar agree.
- `parse_eq_ok_iff_derived`: so do `parse` and the grammar.
-/

namespace Script

open Script.Derivation

variable {c c' : Cursor} {program : Program}

namespace Grammar

/-- Derived programs are read up to the end of input. -/
theorem program_complete {n : Nat} {done ss : List Stmt} {read : List Token}
    (h : Items false ss read) (hread : c.Reads read c') (hend : c'.ahead = [])
    (hbudget : 4 * read.length < n) : Grammar.program n done c = .ok (done.reverse ++ ss) c' := by
  induction ss generalizing read n done c with
  | nil =>
    obtain ⟨k, rfl⟩ : ∃ k, n = k + 1 := ⟨n - 1, by omega⟩
    cases h
    obtain rfl := Cursor.reads_nil_iff.1 hread
    exact program_succ_iff.2 (.inl ⟨hend, (List.append_nil _).symm, rfl⟩)
  | cons s ss ih =>
    obtain ⟨k, rfl⟩ : ∃ k, n = k + 1 := ⟨n - 1, by omega⟩
    cases h with
    | @cons _ _ _ first rest hs hss =>
      simp only [List.length_append] at hbudget
      obtain ⟨c₁, hfirst, hrest⟩ := hread.append
      have hnext : ¬ c'.NextIs (.keyword .elseKw) := by
        rintro ⟨t, ht, -⟩
        rw [hend] at ht
        cases ht
      have hok := item_complete hs hfirst (n := k) (by omega) (noElse_of_items hss hrest hnext)
      obtain ⟨t, tail, rfl, -⟩ := item_head hs
      simp only [List.length_cons] at hbudget
      have hmore : Grammar.program k (s :: done) c₁ = .ok ((s :: done).reverse ++ ss) c' :=
        ih hss hrest (by omega)
      rw [List.reverse_cons, List.append_assoc] at hmore
      refine program_succ_iff.2 (.inr ⟨?_, s, c₁, hok, hmore⟩)
      rw [hfirst.ahead]
      exact List.cons_ne_nil _ _

end Grammar

/-- The reader of programs reads all tokens, and reads what the grammar derives from them. -/
theorem Program.parser_eq_ok_iff :
    Program.parser c = .ok program c' ↔ Items false program c.ahead ∧ c' = ⟨[], c.stop⟩ := by
  have hcomplete (h : Items false program c.ahead) : Program.parser c = .ok program ⟨[], c.stop⟩ :=
    Grammar.program_complete h (Cursor.reads_all _ _) rfl (by unfold Cursor.budget; omega)
  constructor
  · intro h
    obtain ⟨more, rfl, hmore, -⟩ := Grammar.program_sound h
    have hsame := h.symm.trans (hcomplete hmore)
    cases hsame
    exact ⟨hmore, rfl⟩
  · rintro ⟨h, rfl⟩
    exact hcomplete h

theorem parse_eq_ok_iff_items {tokens : List Token} :
    parse tokens = .ok program ↔ Items false program (Cursor.ofTokens tokens).ahead := by
  have hparse : parse tokens = .ok program ↔
      ∃ c', Program.parser (.ofTokens tokens) = .ok program c' := by
    unfold parse
    cases Program.parser (.ofTokens tokens) with
    | ok program' c' => simp
    | error d c' => simp
  rw [hparse]
  constructor
  · rintro ⟨c', h⟩
    exact (Program.parser_eq_ok_iff.1 h).1
  · intro h
    exact ⟨_, Program.parser_eq_ok_iff.2 ⟨h, rfl⟩⟩

/-- **`parse` accepts exactly the statement grammar.** A stream that ends with its only end of input
is the program that the grammar derives from the tokens before it, and the grammar derives at most
one. -/
theorem parse_eq_ok_iff_derived (tokens : List Token) (eof : Token) (heof : eof.kind = .eof)
    (honly : ∀ t ∈ tokens, t.kind ≠ .eof) :
    (∀ program, parse (tokens ++ [eof]) = .ok program ↔ Items false program tokens) ∧
      ∀ program program', Items false program tokens → Items false program' tokens →
        program = program' := by
  have hahead : (Cursor.ofTokens (tokens ++ [eof])).ahead = tokens := by
    show (tokens ++ [eof]).takeWhile _ = tokens
    rw [List.takeWhile_append_of_pos]
    · simp [heof, TokenKind.isEof]
    · intro t ht
      have hkind := mt TokenKind.isEof_iff.1 (honly t ht)
      simpa using hkind
  have hiff (program : Program) :
      parse (tokens ++ [eof]) = .ok program ↔ Items false program tokens := by
    rw [parse_eq_ok_iff_items, hahead]
  refine ⟨hiff, fun program program' h h' => ?_⟩
  exact Except.ok.inj (((hiff program).2 h).symm.trans ((hiff program').2 h'))

/-- An `else` behind `if (a) while (b) if (c) x; ` belongs to the last `if`, through the loop. -/
theorem parse_eq_ok_iff_derived_nearestElse :
    let place (column : Nat) : Position := ⟨1, column⟩
    let tokens := [TokenKind.keyword .ifKw, .punct .leftParen, .ident "a", .punct .rightParen,
      .keyword .whileKw, .punct .leftParen, .ident "b", .punct .rightParen, .keyword .ifKw,
      .punct .leftParen, .ident "c", .punct .rightParen, .ident "x", .punct .semicolon,
      .keyword .elseKw, .ident "y", .punct .semicolon].zipIdx.map
        fun (kind, i) => Token.mk kind "" (place i)
    ∀ program, Items false program tokens ↔ program = [.branch (.ident "a" (place 2))
      (.loop (.ident "b" (place 6)) (.branch (.ident "c" (place 10))
        (.expression (.ident "x" (place 12))) (some (.expression (.ident "y" (place 15))))
        (place 8)) none (place 4)) none (place 0)] := by
  intro place tokens program
  have hgrammar := parse_eq_ok_iff_derived tokens ⟨.eof, "", place 17⟩ rfl (by decide)
  have hparse : parse (tokens ++ [⟨.eof, "", place 17⟩]) = .ok _ := rfl
  have hitems := (hgrammar.1 _).1 hparse
  constructor
  · intro h
    exact hgrammar.2 _ _ h hitems
  · rintro rfl
    exact hitems

end Script
