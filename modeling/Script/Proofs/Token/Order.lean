import Script.Proofs.Token.Faults

/-!
# Tokens stand one behind the other

Reading goes forwards, so each token stands behind those before it and no two stand at one place. A
position of a token therefore tells which token of the text is meant.

- `Position.Before`: one position is further up, or on the same line further to the left.
- `pairwise_before_of_scan`: the tokens of a text stand in their order.
-/

namespace Script

namespace Position

variable {p q r : Position}

/-- A position comes before another in a text. -/
def Before (p q : Position) : Prop := p.line < q.line ∨ p.line = q.line ∧ p.column < q.column

theorem Before.trans (h : p.Before q) (h' : q.Before r) : p.Before r := by
  unfold Before at *
  omega

theorem Before.ne (h : p.Before q) : p ≠ q := by
  rintro rfl
  unfold Before at h
  omega

theorem before_advance (p : Position) (c : Char) : p.Before (p.advance c) := by
  by_cases hc : c = '\n'
  · subst hc
    exact .inl (Nat.lt_succ_self p.line)
  · rw [advance_of_ne hc]
    exact .inr ⟨rfl, Nat.lt_add_of_pos_right c.utf8Size_pos⟩

/-- Behind a stretch of text with at least one character is a later position. -/
theorem before_advanceAll {cs : List Char} (h : cs ≠ []) (p : Position) :
    p.Before (p.advanceAll cs) := by
  induction cs generalizing p with
  | nil => exact absurd rfl h
  | cons c cs ih =>
    rw [advanceAll_cons]
    cases cs with
    | nil => exact before_advance p c
    | cons d ds => exact (before_advance p c).trans (ih (List.cons_ne_nil d ds) _)

end Position

theorem Scans.pairwise_before {before text : List Char} {tokens : List Token}
    (h : Scans before text tokens) : tokens.Pairwise fun t u => t.pos.Before u.pos := by
  induction h with
  | last before gap hgap => exact List.pairwise_singleton _ _
  | lexeme before gap text rest kind tokens hgap hspells hlongest hopens hrest ih =>
    refine List.pairwise_cons.2 ⟨fun t ht => ?_, ih⟩
    -- the lexeme is between the two, and it is not empty
    obtain ⟨u, v, -, hpos⟩ := hrest.pos_mem t ht
    rw [hpos, List.append_assoc _ text u, Position.behind_append (before ++ gap)]
    refine Position.before_advanceAll (fun hempty => hspells.ne_nil ?_) _
    exact (List.append_eq_nil_iff.1 hempty).1

/-- **Each token stands behind those before it.** -/
theorem pairwise_before_of_scan {source : String} {tokens : List Token}
    (h : scan source = .ok tokens) : tokens.Pairwise fun t u => t.pos.Before u.pos :=
  (scan_eq_ok_iff_scans.1 h).pairwise_before

end Script
