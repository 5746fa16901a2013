import Script.Proofs.Grammar.Reading

/-!
# Tokens with a place among them

A cursor knows only the tokens that are still to be read, up to the end of input. A tape is the
whole stream, with whatever stands behind its first end of input, and a place in it that moves on by
one token at a time. What can be seen from that place is a cursor.

- `Tape`: a stream that ends with an end of input, and the place of the next token.
- `Tape.ofTokens`: any stream, with an end of input put behind it if its last token is none.
- `Tape.cursor`: what is ahead; `cursor_ofTokens`, `cursor_of_end`, `reads_advance`: how it changes.
- `Tape.Reaches`: moving on over tokens none of which is an end of input.
-/

namespace Script

/-- A stream of tokens that ends with an end of input, which need not be the first in it, and the
place of the next token. `passed` holds the places that were left, latest first; no reader looks at
it. -/
structure Tape where
  tokens : List Token
  pos : Nat
  passed : List Nat
  inside : pos < tokens.length
  closed : ∃ e, tokens.getLast? = some e ∧ e.kind = .eof

namespace Tape

/-- The next token. -/
def next (t : Tape) : Token := t.tokens.get ⟨t.pos, t.inside⟩

/-- Leaves the next token. On the last token of the stream the place stays the same. -/
def advance (t : Tape) : Tape :=
  if h : t.pos + 1 < t.tokens.length then
    { t with pos := t.pos + 1, passed := t.pos :: t.passed, inside := h }
  else { t with passed := t.pos :: t.passed }

/-! ## Any stream of tokens -/

/-- The end of input that is put behind a stream: on the line of its last token, at column zero. -/
def supplied (tokens : List Token) : Token :=
  ⟨.eof, "", ⟨(tokens.getLast?.map (·.pos.line)).getD 1, 0⟩⟩

/-- The stream with an end of input behind it, unless its last token is one. -/
def closing (tokens : List Token) : List Token :=
  if tokens.getLast?.any (·.kind.isEof) then tokens else tokens ++ [supplied tokens]

theorem closed_closing (tokens : List Token) :
    ∃ e, (closing tokens).getLast? = some e ∧ e.kind = .eof := by
  unfold closing
  split
  · rename_i hlast
    cases he : tokens.getLast? with
    | none =>
      rw [he] at hlast
      cases hlast
    | some e =>
      rw [he] at hlast
      exact ⟨e, rfl, TokenKind.isEof_iff.1 hlast⟩
  · exact ⟨supplied tokens, List.getLast?_concat, rfl⟩

/-- The tape of a stream, at its first token. -/
def ofTokens (tokens : List Token) : Tape where
  tokens := closing tokens
  pos := 0
  passed := []
  inside := by
    obtain ⟨e, he, -⟩ := closed_closing tokens
    exact List.length_pos_of_mem (List.mem_of_getLast? he)
  closed := closed_closing tokens

/-! ## What is ahead -/

variable {t t₁ t₂ : Tape}

/-- The tokens that are still to be read, up to the next end of input. -/
def cursor (t : Tape) : Cursor := .ofTokens (t.tokens.drop t.pos)

/-- How many tokens are ahead of the next end of input. -/
def left (t : Tape) : Nat := t.cursor.ahead.length

theorem getElem?_pos (t : Tape) : t.tokens[t.pos]? = some t.next :=
  List.getElem?_eq_getElem t.inside

theorem drop_eq (t : Tape) : t.tokens.drop t.pos = t.next :: t.tokens.drop (t.pos + 1) :=
  List.drop_eq_getElem_cons t.inside

theorem cursor_ofTokens (tokens : List Token) : (ofTokens tokens).cursor = .ofTokens tokens := by
  show Cursor.ofTokens ((closing tokens).drop 0) = _
  rw [List.drop_zero, closing]
  split
  · rfl
  · have hend : (supplied tokens).kind.isEof = true := rfl
    unfold Cursor.ofTokens
    congr 1
    · rw [List.takeWhile_append]
      split
      · rename_i hall
        have hwhole := (List.takeWhile_prefix fun u : Token => !u.kind.isEof).eq_of_length hall
        rw [hwhole, List.takeWhile_cons_of_neg (by simp [hend]), List.append_nil]
      · rfl
    · rw [List.find?_append]
      cases tokens.find? fun u => u.kind.isEof with
      | some e => rfl
      | none =>
        rw [List.find?_cons_of_pos (p := fun u : Token => u.kind.isEof) hend]
        unfold supplied
        cases tokens.getLast? <;> rfl

/-- At an end of input nothing is ahead. -/
theorem cursor_of_end (h : t.next.kind = .eof) : t.cursor = ⟨[], t.next.pos⟩ := by
  have hend : t.next.kind.isEof = true := TokenKind.isEof_iff.2 h
  simp [cursor, Cursor.ofTokens, drop_eq, hend]

/-- The last token of a stream is an end of input, so behind any other there is one more. -/
theorem succ_lt_length (h : t.next.kind ≠ .eof) : t.pos + 1 < t.tokens.length := by
  obtain ⟨e, he, hend⟩ := t.closed
  refine Nat.lt_of_not_le fun hlast => h ?_
  have hpos : t.tokens.length - 1 = t.pos := by
    have := t.inside
    omega
  rw [List.getLast?_eq_getElem?, hpos, List.getElem?_eq_getElem t.inside] at he
  obtain rfl := Option.some.inj he
  exact hend

theorem advance_eq (h : t.next.kind ≠ .eof) : t.advance =
    { t with pos := t.pos + 1, passed := t.pos :: t.passed, inside := succ_lt_length h } :=
  dif_pos (succ_lt_length h)

theorem pos_advance (h : t.next.kind ≠ .eof) : t.advance.pos = t.pos + 1 :=
  congrArg Tape.pos (advance_eq h)

/-- From every place there is an end of input ahead. -/
theorem exists_find? (t : Tape) :
    ∃ e, (t.tokens.drop t.pos).find? (fun u => u.kind.isEof) = some e := by
  obtain ⟨e, he, hend⟩ := t.closed
  have hlast : (t.tokens.drop t.pos).getLast? = some e := by
    rw [List.getLast?_drop, if_neg (Nat.not_le_of_lt t.inside), he]
  refine Option.isSome_iff_exists.1 (List.find?_isSome.2 ⟨e, List.mem_of_getLast? hlast, ?_⟩)
  exact TokenKind.isEof_iff.2 hend

/-- Any other token is read by moving on. -/
theorem reads_advance (h : t.next.kind ≠ .eof) : t.cursor.Reads [t.next] t.advance.cursor := by
  have hend : t.next.kind.isEof = false := by
    rwa [Bool.eq_false_iff, ne_eq, TokenKind.isEof_iff]
  obtain ⟨e, he⟩ := t.advance.exists_find?
  rw [advance_eq h] at he ⊢
  constructor
  · simp [cursor, Cursor.ofTokens, drop_eq, hend]
  · simp [cursor, Cursor.ofTokens, drop_eq, hend, he]

/-! ## Moving on -/

/-- From `t` one comes to `t'` by leaving tokens none of which is an end of input. -/
inductive Reaches : Tape → Tape → Prop
  | refl (t : Tape) : Reaches t t
  | step {t t' : Tape} (h : t.next.kind ≠ .eof) (rest : Reaches t.advance t') : Reaches t t'

theorem Reaches.trans (h₁ : t.Reaches t₁) (h₂ : t₁.Reaches t₂) : t.Reaches t₂ := by
  induction h₁ with
  | refl => exact h₂
  | step h _ ih => exact .step h (ih h₂)

theorem reaches_advance (h : t.next.kind ≠ .eof) : t.Reaches t.advance := .step h (.refl _)

/-- The stream stays the same. -/
theorem Reaches.tokens_eq (h : t.Reaches t₁) : t₁.tokens = t.tokens := by
  induction h with
  | refl => rfl
  | step h _ ih => rw [ih, advance_eq h]

/-- What has been left is no longer ahead. -/
theorem Reaches.pos_add_left (h : t.Reaches t₁) : t₁.pos + t₁.left = t.pos + t.left := by
  induction h with
  | refl => rfl
  | @step t t' h _ ih =>
    have hlength : t.left = t.advance.left + 1 := by
      unfold left
      rw [(reads_advance h).ahead, List.singleton_append, List.length_cons]
    rw [ih, hlength, pos_advance h]
    omega

/-- The place never goes back. -/
theorem Reaches.pos_le (h : t.Reaches t₁) : t.pos ≤ t₁.pos := by
  induction h with
  | refl => exact Nat.le_refl _
  | step h _ ih =>
    rw [pos_advance h] at ih
    exact Nat.le_of_succ_le ih

/-- Every place on the way is left once, one after the other. -/
theorem Reaches.passed_eq (h : t.Reaches t₁) :
    t₁.passed = (List.range' t.pos (t₁.pos - t.pos)).reverse ++ t.passed := by
  induction h with
  | refl t => simp
  | @step t t' h rest ih =>
    have hle := rest.pos_le
    rw [pos_advance h] at hle
    rw [advance_eq h] at ih
    have hcount : t'.pos - t.pos = t'.pos - (t.pos + 1) + 1 := by omega
    rw [ih, hcount, List.range'_succ, List.reverse_cons, List.append_assoc, List.singleton_append]

/-- The place of the first end of input in the stream. -/
def firstEnd (t : Tape) : Nat := t.tokens.findIdx fun u => u.kind.isEof

theorem pos_lt_firstEnd (h : t.next.kind ≠ .eof) (hpos : t.pos ≤ t.firstEnd) :
    t.pos < t.firstEnd := by
  refine Nat.lt_of_le_of_ne hpos fun heq => h (TokenKind.isEof_iff.1 ?_)
  have hfirst : t.firstEnd < t.tokens.length := heq ▸ t.inside
  have hnext := t.getElem?_pos
  rw [heq, List.getElem?_eq_getElem hfirst] at hnext
  rw [← Option.some.inj hnext]
  exact List.findIdx_getElem (w := hfirst)

/-- The first end of input is not passed. -/
theorem Reaches.pos_le_firstEnd (h : t.Reaches t₁) (hpos : t.pos ≤ t.firstEnd) :
    t₁.pos ≤ t.firstEnd := by
  induction h with
  | refl => exact hpos
  | step h _ ih =>
    rw [advance_eq h] at ih
    exact ih (pos_lt_firstEnd h hpos)

end Tape

end Script
