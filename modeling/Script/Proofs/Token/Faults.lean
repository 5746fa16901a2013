import Script.Proofs.Token.Tiling

/-!
# Where a text is at fault

A text that is not read into tokens is at fault at a place that can be pointed at: at a character
that begins no lexeme, or at its end, which a quoted text does not get beyond.

- `readLexeme_error`: why no lexeme is read.
- `Scans.pos_mem`, `Scans.exists_body`: the tokens of a text stand at places of the text, and the
  end of input is the last of them.
- `scan_error`: the faults of a text and their positions.
-/

namespace Script

variable {pos : Position} {c : Char} {cs : List Char} {d : Diagnostic}

/-- A character begins no lexeme, or what it quotes does not end. -/
theorem readLexeme_error (h : readLexeme pos c cs = .error d) :
    d = ⟨.unexpectedCharacter c, pos⟩ ∨ d = ⟨.unterminatedString, pos.advanceAll (c :: cs)⟩ := by
  unfold readLexeme at h
  split at h
  · rename_i hquote
    subst hquote
    unfold readString at h
    split at h
    · rename_i hnone
      have hbody := List.takeWhile_append_dropWhile (p := (· ≠ '"')) (l := cs)
      rw [hnone, List.append_nil] at hbody
      rw [hbody] at h
      exact .inr (Except.error.inj h).symm
    · cases h
  · split at h
    · cases h
    · split at h
      · cases h
      · split at h
        · cases h
        · exact .inl (Except.error.inj h).symm

/-- A text that stands behind `before` is at fault at one of its characters or at its end. -/
theorem scanFrom_error {done : List Token} {before : List Char} (hpos : pos = .behind before)
    (h : scanFrom pos done cs = .error d) :
    (∃ u c v, cs = u ++ c :: v ∧ d = ⟨.unexpectedCharacter c, .behind (before ++ u)⟩) ∨
      d = ⟨.unterminatedString, .behind (before ++ cs)⟩ := by
  fun_induction scanFrom pos done cs generalizing before with
  | case1 => cases h
  | case2 pos done c cs hc ih =>
    have hnext : pos.advance c = .behind (before ++ [c]) := by rw [hpos, Position.behind_concat]
    rcases ih hnext h with ⟨u, e, v, rfl, rfl⟩ | rfl
    · exact .inl ⟨c :: u, e, v, rfl, by simp⟩
    · exact .inr (by simp)
  | case3 pos done c cs _ hc ih =>
    have hnext : pos.advanceAll (c :: cs.takeWhile (· ≠ '\n')) =
        .behind (before ++ c :: cs.takeWhile (· ≠ '\n')) := by
      rw [hpos, Position.behind_append]
    have hjoined := List.takeWhile_append_dropWhile (p := (· ≠ '\n')) (l := cs)
    rcases ih hnext h with ⟨u, e, v, hrest, rfl⟩ | rfl
    · refine .inl ⟨c :: cs.takeWhile (· ≠ '\n') ++ u, e, v, ?_, by simp⟩
      rw [List.append_assoc, ← hrest, List.cons_append, hjoined]
    · refine .inr ?_
      rw [List.append_assoc, List.cons_append, hjoined]
  | case4 pos done c cs _ _ d' hread =>
    obtain rfl := Except.error.inj h
    rcases readLexeme_error hread with rfl | rfl
    · exact .inl ⟨[], c, cs, rfl, by rw [hpos, List.append_nil]⟩
    · exact .inr (by rw [hpos, Position.behind_append])
  | case5 pos done c cs _ _ l hread ih =>
    have hnext : pos.advanceAll l.text = .behind (before ++ l.text) := by
      rw [hpos, Position.behind_append]
    have htiles := readLexeme_tiles hread
    rcases ih hnext h with ⟨u, e, v, hrest, rfl⟩ | rfl
    · refine .inl ⟨l.text ++ u, e, v, ?_, by simp⟩
      rw [List.append_assoc, ← hrest, htiles]
    · refine .inr ?_
      rw [List.append_assoc, htiles]

/-- **What a text is at fault for, and where**: a character that begins no lexeme, where it stands,
or a quoted text without an end, at the end of the text. -/
theorem scan_error {source : String} (h : scan source = .error d) :
    (∃ u c v, source.toList = u ++ c :: v ∧ d = ⟨.unexpectedCharacter c, .behind u⟩) ∨
      d = ⟨.unterminatedString, .behind source.toList⟩ := by
  simpa using scanFrom_error Position.behind_nil.symm h

/-- Each token stands at a place of the text. -/
theorem Scans.pos_mem {before text : List Char} {tokens : List Token}
    (h : Scans before text tokens) :
    ∀ t ∈ tokens, ∃ u v, text = u ++ v ∧ t.pos = .behind (before ++ u) := by
  induction h with
  | last before gap hgap =>
    intro t ht
    obtain rfl := List.mem_singleton.1 ht
    exact ⟨gap, [], (List.append_nil gap).symm, rfl⟩
  | lexeme before gap text rest kind tokens hgap hspells hlongest hopens _ ih =>
    intro t ht
    rcases List.mem_cons.1 ht with rfl | ht
    · exact ⟨gap, text ++ rest, List.append_assoc .., rfl⟩
    · obtain ⟨u, v, rfl, hpos⟩ := ih t ht
      exact ⟨gap ++ text ++ u, v, by simp, by simpa using hpos⟩

/-- The end of input is the last of the tokens, and no other is one. -/
theorem Scans.exists_body {before text : List Char} {tokens : List Token}
    (h : Scans before text tokens) :
    ∃ body, tokens = body ++ [⟨.eof, "", .behind (before ++ text)⟩] ∧
      ∀ t ∈ body, t.kind ≠ .eof := by
  induction h with
  | last before gap hgap => exact ⟨[], rfl, List.forall_mem_nil _⟩
  | lexeme before gap text rest kind tokens hgap hspells hlongest hopens _ ih =>
    obtain ⟨body, rfl, hbody⟩ := ih
    refine ⟨⟨kind, String.ofList text, .behind (before ++ gap)⟩ :: body, by simp, ?_⟩
    exact List.forall_mem_cons.2 ⟨hspells.ne_eof, hbody⟩

/-- The end of input is a token of every text. -/
theorem exists_eof_of_scan {source : String} {tokens : List Token}
    (h : scan source = .ok tokens) : ∃ t ∈ tokens, t.kind = .eof := by
  obtain ⟨body, rfl, -⟩ := (scan_eq_ok_iff_scans.1 h).exists_body
  exact ⟨_, List.mem_append_right _ (List.mem_singleton.2 rfl), rfl⟩

end Script
