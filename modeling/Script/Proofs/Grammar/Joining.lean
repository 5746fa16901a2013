import Script.Proofs.Grammar.Placement
import Script.Proofs.Token.Joining

/-!
# Programs on top of each other

Two texts that are programs are one program with a line feed between them, whatever the first ends
with: a comment ends at the line feed, and no statement goes on behind the last of a program.

- `Derivation.Items.append`: lists of statements, one behind the other.
- `parse_append`: streams of tokens, one behind the other.
- `compile_join`: texts on top of each other.
-/

namespace Script

open Script.Derivation

variable {inLoop : Bool} {first second : List Stmt} {read read' : List Token}

/-- No item begins with an `else`, so an item that is open is not continued by the next one. -/
theorem Derivation.Items.append (h : Items inLoop first read) (h' : Items inLoop second read') :
    Items inLoop (first ++ second) (read ++ read') := by
  induction first generalizing read with
  | nil =>
    cases h
    exact h'
  | cons s ss ih =>
    cases h with
    | cons hs hss =>
      rw [List.append_assoc]
      exact .cons hs (ih hss)

/-- Tokens before the end of input are read first. -/
theorem Cursor.ahead_ofTokens_append {body tokens : List Token}
    (h : ∀ t ∈ body, t.kind ≠ .eof) :
    (Cursor.ofTokens (body ++ tokens)).ahead = body ++ (Cursor.ofTokens tokens).ahead := by
  refine List.takeWhile_append_of_pos fun t ht => ?_
  have hkind := mt TokenKind.isEof_iff.1 (h t ht)
  simpa using hkind

/-- A program behind another is a program, if the first is without its end of input. -/
theorem parse_append {body tokens : List Token} {last : Token} {ps qs : Program}
    (hbody : ∀ t ∈ body, t.kind ≠ .eof) (hlast : last.kind = .eof)
    (hfirst : parse (body ++ [last]) = .ok ps) (hsecond : parse tokens = .ok qs) :
    parse (body ++ tokens) = .ok (ps ++ qs) := by
  rw [parse_eq_ok_iff_items] at hfirst hsecond ⊢
  have hnone : (Cursor.ofTokens [last]).ahead = [] := by
    simp [Cursor.ofTokens, TokenKind.isEof_iff, hlast]
  rw [Cursor.ahead_ofTokens_append hbody, hnone, List.append_nil] at hfirst
  rw [Cursor.ahead_ofTokens_append hbody]
  exact hfirst.append hsecond

/-- **Two programs are one with a line feed between their texts**: the statements of the first, and
behind them those of the second, at positions further down by the lines of the first. -/
theorem compile_join {above below : String} {ps qs : Program} (habove : compile above = .ok ps)
    (hbelow : compile below = .ok qs) :
    compile (above ++ "\n" ++ below) = .ok (ps ++ qs.moved (.down (lineCount above))) := by
  obtain ⟨tokens, hscan, hparse⟩ := exists_tokens_of_compile habove
  obtain ⟨belowTokens, hscan', hparse'⟩ := exists_tokens_of_compile hbelow
  obtain ⟨body, last, rfl, hlast, hbody, hjoined⟩ := scan_join hscan hscan'
  have hmoved := parse_moved (μ := .down (lineCount above)) (exists_eof_of_scan hscan')
  rw [hparse'] at hmoved
  unfold compile
  rw [hjoined]
  exact parse_append hbody hlast hparse hmoved

end Script
