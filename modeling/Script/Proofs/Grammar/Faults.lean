import Script.Proofs.Grammar.Joining
import Script.Proofs.Grammar.Settling

/-!
# Which token a fault is at

A diagnostic carries the position of a token. Positions have no part in reading, so the tokens may
as well stand at their numbers: then the diagnostic carries the number of the token that is at
fault. The tokens up to this one decide that the stream is refused, and, unless the target of an
assignment is at fault, they decide the diagnostic.

- `Cursor.numbered`: the same tokens, each at its number.
- `faultIndex?`: the number of the token that is at fault.
- `parse_error_decided`: what follows the token at fault has no part in the diagnostic.
-/

namespace Script

/-! ## Tokens at their numbers -/

/-- The token at the position that stands for a number. -/
def Token.numbered (i : Nat) (t : Token) : Token := { t with pos := ⟨i, 0⟩ }

namespace Cursor

/-- The cursor in front of the same tokens, each at its number. -/
def numbered (c : Cursor) : Cursor := ⟨c.ahead.mapIdx Token.numbered, ⟨c.ahead.length, 0⟩⟩

/-- The position of the token with a given number; behind the last token, that of the end of
input. -/
def place (c : Cursor) (number : Position) : Position :=
  (c.ahead[number.line]?.map (·.pos)).getD c.stop

variable {c c' : Cursor} {read before behind : List Token} {t : Token}

theorem numbered_moved (c : Cursor) : c.numbered.moved c.place = c := by
  obtain ⟨ahead, stop⟩ := c
  refine congrArg₂ Cursor.mk (List.ext_getElem? fun i => ?_) ?_
  · show ((ahead.mapIdx Token.numbered).map (Token.moved (place ⟨ahead, stop⟩)))[i]? = ahead[i]?
    rw [List.getElem?_map, List.getElem?_mapIdx]
    cases h : ahead[i]? with
    | none => rfl
    | some t => simp [Token.moved, Token.numbered, place, h]
  · simp [place, numbered]

/-- The next token has the number of those that have been read. -/
theorem numbered_pos (h : c.numbered.Reads read c') : c'.pos = ⟨read.length, 0⟩ := by
  have hahead : c.ahead.mapIdx Token.numbered = read ++ c'.ahead := h.ahead
  obtain ⟨_ | ⟨t, rest⟩, stop⟩ := c'
  · have hlength := congrArg List.length hahead
    rw [List.length_mapIdx, List.append_nil] at hlength
    have hstop : (⟨c.ahead.length, 0⟩ : Position) = stop := h.stop
    rw [hlength] at hstop
    exact hstop.symm
  · have hget := congrArg (·[read.length]?) hahead
    simp only [List.getElem?_mapIdx, List.getElem?_append_right, Nat.le_refl, Nat.sub_self,
      List.getElem?_cons_zero] at hget
    obtain ⟨u, -, rfl⟩ := Option.map_eq_some_iff.1 hget
    rfl

/-- What is read of the tokens is read of them at their numbers. -/
theorem Reads.numbered (h : c.Reads read c') :
    ∃ c₁, c.numbered.Reads (read.mapIdx Token.numbered) c₁ ∧
      c₁.ahead.head? = c'.ahead.head?.map (Token.numbered read.length) := by
  refine ⟨⟨c'.ahead.mapIdx fun i => Token.numbered (i + read.length), c.numbered.stop⟩,
    ⟨?_, rfl⟩, ?_⟩
  · show c.ahead.mapIdx Token.numbered = _
    rw [h.ahead, List.mapIdx_append]
  · cases c'.ahead <;> simp

theorem place_of_reads (h : c.Reads read c') : c.place ⟨read.length, 0⟩ = c'.pos := by
  rw [h.eq]
  obtain ⟨_ | ⟨t, rest⟩, stop⟩ := c' <;> simp [place, pos]

/-- In front of a token and what follows it, the tokens before it are read first. -/
theorem ofTokens_reads (h : ∀ u ∈ before, u.kind ≠ .eof) :
    ∃ c', (ofTokens (before ++ t :: behind)).Reads before c' ∧ c'.pos = t.pos ∧
      c'.ahead.head? = if t.kind.isEof then none else some t := by
  refine ⟨⟨(ofTokens (t :: behind)).ahead, (ofTokens (before ++ t :: behind)).stop⟩,
    ⟨ahead_ofTokens_append h, rfl⟩, ?_⟩
  cases hkind : t.kind.isEof with
  | false => simp [ofTokens, pos, hkind]
  | true =>
    have hnone : before.find? (fun u => u.kind.isEof) = none := by
      refine List.find?_eq_none.2 fun u hu => ?_
      rw [TokenKind.isEof_iff]
      exact h u hu
    simp [ofTokens, pos, hkind, hnone, List.find?_append]

end Cursor

/-! ## The token at fault -/

/-- Reading a program is reading it of tokens at their numbers, and putting the positions back. -/
theorem Program.parser_eq_moved (c : Cursor) :
    Program.parser c =
      Parser.resultMoved c.place (List.map (Stmt.moved c.place)) (Program.parser c.numbered) := by
  have hcarried := Grammar.program_carried (μ := c.place) c.budget [] c.numbered
  rw [Cursor.numbered_moved] at hcarried
  have hbudget : c.numbered.budget = c.budget := by
    unfold Cursor.budget Cursor.numbered
    rw [List.length_mapIdx]
  unfold Program.parser
  rw [hbudget]
  exact hcarried

/-- The number of the token that is at fault in a stream which is no program. -/
def faultIndex? (tokens : List Token) : Option Nat :=
  match Program.parser (Cursor.ofTokens tokens).numbered with
  | .ok _ _ => none
  | .error d _ => some d.pos.line

variable {tokens before behind behind' : List Token} {t : Token} {d : Diagnostic}

theorem faultIndex?_eq_some {fault : Fault} {k : Nat} {c : Cursor}
    (h : Program.parser (Cursor.ofTokens tokens).numbered = .error ⟨fault, ⟨k, 0⟩⟩ c) :
    faultIndex? tokens = some k := by
  unfold faultIndex?
  rw [h]

/-- A diagnostic is that of the tokens at their numbers, at the position of the token at fault. -/
theorem parse_eq_error_iff :
    parse tokens = .error d ↔ ∃ number c, Program.parser (Cursor.ofTokens tokens).numbered =
      .error ⟨d.fault, number⟩ c ∧ (Cursor.ofTokens tokens).place number = d.pos := by
  unfold parse
  rw [Program.parser_eq_moved]
  cases Program.parser (Cursor.ofTokens tokens).numbered with
  | ok program c => simp [Parser.resultMoved]
  | error d' c =>
    constructor
    · intro h
      obtain rfl := Except.error.inj h
      exact ⟨d'.pos, c, rfl, rfl⟩
    · rintro ⟨number, c', h, hpos⟩
      cases h
      exact congrArg Except.error (congrArg (Diagnostic.mk d.fault) hpos)

/-- A stream with an end of input is divided by any number of the tokens before it. -/
theorem exists_division (heof : ∃ t ∈ tokens, t.kind = .eof) {k : Nat}
    (hk : k ≤ (Cursor.ofTokens tokens).ahead.length) :
    ∃ before t behind, tokens = before ++ t :: behind ∧ before.length = k ∧
      ∀ u ∈ before, u.kind ≠ .eof := by
  have hsplit : tokens = (Cursor.ofTokens tokens).ahead.take k ++
      ((Cursor.ofTokens tokens).ahead.drop k ++ tokens.dropWhile fun t => !t.kind.isEof) := by
    rw [← List.append_assoc, List.take_append_drop]
    exact List.takeWhile_append_dropWhile.symm
  have hrest : tokens.dropWhile (fun t => !t.kind.isEof) ≠ [] := by
    obtain ⟨last, hlast, hkind⟩ := heof
    intro hnil
    have hnone := List.dropWhile_eq_nil_iff.1 hnil last hlast
    rw [hkind] at hnone
    cases hnone
  obtain ⟨t, behind, hbehind⟩ := List.exists_cons_of_ne_nil
    (List.append_ne_nil_of_right_ne_nil ((Cursor.ofTokens tokens).ahead.drop k) hrest)
  rw [hbehind] at hsplit
  refine ⟨_, t, behind, hsplit, List.length_take_of_le hk, fun u hu hkind => ?_⟩
  have hbefore := List.mem_takeWhile_imp (List.mem_of_mem_take hu)
  rw [hkind] at hbefore
  cases hbefore

/-- Two streams that are the same up to a token lead to the same place in front of it. -/
theorem exists_retraces (h : ∀ u ∈ before, u.kind ≠ .eof) :
    ∃ c' e', (Cursor.ofTokens (before ++ t :: behind)).numbered.Reads
        (before.mapIdx Token.numbered) c' ∧
      Cursor.Retraces (Cursor.ofTokens (before ++ t :: behind')).numbered.ahead.length
        (before.mapIdx Token.numbered) c'
        (Cursor.ofTokens (before ++ t :: behind')).numbered e' := by
  obtain ⟨c₁, hc, -, hhead⟩ := Cursor.ofTokens_reads h
  obtain ⟨e₁, he, -, hhead'⟩ := Cursor.ofTokens_reads h
  obtain ⟨c', hc', hnext⟩ := hc.numbered
  obtain ⟨e', he', hnext'⟩ := he.numbered
  refine ⟨c', e', hc', Nat.le_refl _, he', ?_, ?_⟩
  · rw [hnext, hnext', hhead, hhead']
  · rw [Cursor.numbered_pos hc', Cursor.numbered_pos he']

theorem enough_le_budget (c : Cursor) : 16 * c.ahead.length + 7 ≤ c.budget := by
  unfold Cursor.budget
  omega

/-- A fault behind the tokens `read` is a fault of every stream that begins with them and with what
is next behind them. -/
theorem Program.parser_error_retraced {c e c' e' c₁ : Cursor} {read : List Token}
    (hrun : Program.parser c.numbered = .error d c₁) (hread : c.numbered.Reads read c')
    (hpos : d.pos = c'.pos) (he : Cursor.Retraces e.ahead.length read c' e e') :
    ∃ d' e₁, Program.parser e = .error d' e₁ ∧ (d.fault ≠ .invalidTarget → d' = d) := by
  -- a budget that is enough for both streams
  generalize hroom : max c.numbered.ahead.length e.ahead.length = room
  have hlong : c.numbered.ahead.length ≤ room := hroom ▸ Nat.le_max_left _ _
  have hlong' : e.ahead.length ≤ room := hroom ▸ Nat.le_max_right _ _
  have hshared := Grammar.program_settled (16 * room + 7) (16 * room + 7) []
    (c := c.numbered) (Nat.le_refl _) (Nat.le_refl _)
  have hmore := Grammar.program_settled c.numbered.budget (16 * room + 7) [] (c := c.numbered)
    (enough_le_budget _) (by omega)
  obtain ⟨c₂, hrun⟩ := hmore.error_self (Nat.le_refl _) hrun
  obtain ⟨read', c'', hread', hpos', hother⟩ := hshared.error hlong hrun
  have hlength : read'.length = read.length := by
    rw [hpos, Cursor.numbered_pos hread, Cursor.numbered_pos hread'] at hpos'
    exact (congrArg Position.line hpos').symm
  obtain ⟨rfl, -⟩ := List.append_inj (hread'.ahead.symm.trans hread.ahead) hlength
  obtain rfl := hread.unique hread'
  obtain ⟨d', e₁, herror, hsame⟩ := hother e e' ⟨hlong', he.reads, he.next⟩
  have hless := Grammar.program_settled (16 * room + 7) e.budget [] (c := e) (by omega)
    (enough_le_budget e)
  obtain ⟨e₂, herror⟩ := hless.error_self (Nat.le_refl _) herror
  exact ⟨d', e₂, herror, fun hfault => hsame fun h => absurd h hfault⟩

/-- A fault is at one of the tokens ahead, or at the end of input behind them. -/
theorem exists_number_of_fault (herror : parse tokens = .error d) :
    ∃ k c, k ≤ (Cursor.ofTokens tokens).ahead.length ∧
      Program.parser (Cursor.ofTokens tokens).numbered = .error ⟨d.fault, ⟨k, 0⟩⟩ c ∧
      (Cursor.ofTokens tokens).place ⟨k, 0⟩ = d.pos := by
  obtain ⟨number, c₁, hrun, hplace⟩ := parse_eq_error_iff.1 herror
  have henough := enough_le_budget (Cursor.ofTokens tokens).numbered
  have hsettled := Grammar.program_settled _ _ [] (c := (Cursor.ofTokens tokens).numbered) henough
    henough
  obtain ⟨read, c', hread, hnumber, -⟩ := hsettled.error (Nat.le_refl _) hrun
  rw [Cursor.numbered_pos hread] at hnumber
  obtain rfl : number = ⟨read.length, 0⟩ := hnumber
  have hlength := hread.length_eq
  unfold Cursor.numbered at hlength
  rw [List.length_mapIdx] at hlength
  exact ⟨read.length, c₁, by omega, hrun, hplace⟩

/-- A fault in a stream with an end of input is at one of its tokens, the number of which is that
of the tokens before it. -/
theorem exists_token_at_fault (heof : ∃ t ∈ tokens, t.kind = .eof)
    (herror : parse tokens = .error d) :
    ∃ before t behind, tokens = before ++ t :: behind ∧ (∀ u ∈ before, u.kind ≠ .eof) ∧
      d.pos = t.pos ∧ ∃ c, Program.parser (Cursor.ofTokens tokens).numbered =
        .error ⟨d.fault, ⟨before.length, 0⟩⟩ c := by
  obtain ⟨k, c₁, hk, hrun, hplace⟩ := exists_number_of_fault herror
  obtain ⟨before, t, behind, rfl, rfl, hkinds⟩ := exists_division heof hk
  obtain ⟨c₂, hc, hnext, -⟩ := Cursor.ofTokens_reads hkinds
  rw [Cursor.place_of_reads hc, hnext] at hplace
  exact ⟨before, t, behind, rfl, hkinds, hplace.symm, c₁, hrun⟩

/-- Behind the token at fault other tokens can follow: the stream is refused again, and at the same
token, unless the target of an assignment is at fault. -/
theorem parse_error_again {fault : Fault} {c : Cursor} (hbefore : ∀ u ∈ before, u.kind ≠ .eof)
    (hrun : Program.parser (Cursor.ofTokens (before ++ t :: behind)).numbered =
      .error ⟨fault, ⟨before.length, 0⟩⟩ c) :
    ∃ d', parse (before ++ t :: behind') = .error d' ∧
      (fault ≠ .invalidTarget → d' = ⟨fault, t.pos⟩) := by
  obtain ⟨c₁, e₁, hc, he⟩ := exists_retraces hbefore
  have hnumber : (⟨before.length, 0⟩ : Position) = c₁.pos := by
    rw [Cursor.numbered_pos hc, List.length_mapIdx]
  obtain ⟨d', e₂, hother, hsame⟩ := Program.parser_error_retraced hrun hc hnumber he
  refine ⟨⟨d'.fault, (Cursor.ofTokens (before ++ t :: behind')).place d'.pos⟩,
    parse_eq_error_iff.2 ⟨d'.pos, e₂, hother, rfl⟩, fun hfault => ?_⟩
  obtain rfl := hsame hfault
  obtain ⟨c₂, hread, hnext, -⟩ := Cursor.ofTokens_reads hbefore
  rw [Cursor.place_of_reads hread, hnext]

/-- **A fault is decided by the tokens up to the one it is at.** Whatever follows this token, the
stream is no program, and unless the target of an assignment is at fault, the diagnostic is the
same. -/
theorem parse_error_decided (heof : ∃ t ∈ tokens, t.kind = .eof)
    (herror : parse tokens = .error d) :
    ∃ before t behind, tokens = before ++ t :: behind ∧ faultIndex? tokens = some before.length ∧
      t.pos = d.pos ∧ ∀ behind', (∀ program, parse (before ++ t :: behind') ≠ .ok program) ∧
        (d.fault.code ≠ "P003" → parse (before ++ t :: behind') = .error d) := by
  obtain ⟨before, t, behind, rfl, hbefore, hpos, c, hrun⟩ := exists_token_at_fault heof herror
  refine ⟨before, t, behind, rfl, faultIndex?_eq_some hrun, hpos.symm, fun behind' => ?_⟩
  obtain ⟨d', hagain, hsame⟩ := parse_error_again hbefore hrun
  refine ⟨fun program hok => ?_, fun hcode => ?_⟩
  · rw [hagain] at hok
    cases hok
  obtain rfl := hsame fun hfault => hcode (congrArg Fault.code hfault)
  rw [hagain, ← hpos]

/-- Whatever stands behind `print a b`, the semicolon is missing at `b`. -/
theorem parse_error_decided_missingSemicolon :
    let token (kind : TokenKind) (column : Nat) : Token := ⟨kind, "", ⟨1, column⟩⟩
    let before := [token (.keyword .printKw) 1, token (.ident "a") 7]
    faultIndex? (before ++ token (.ident "b") 9 :: [token .eof 10]) = some 2 ∧
      ∀ behind, parse (before ++ token (.ident "b") 9 :: behind) =
        .error ⟨.missing .printEnd, ⟨1, 9⟩⟩ := by
  intro token before
  have heof : ∃ t ∈ before ++ token (.ident "b") 9 :: [token .eof 10], t.kind = .eof :=
    ⟨token .eof 10, by simp, rfl⟩
  have herror : parse (before ++ token (.ident "b") 9 :: [token .eof 10]) =
      .error ⟨.missing .printEnd, ⟨1, 9⟩⟩ := rfl
  have hindex : faultIndex? (before ++ token (.ident "b") 9 :: [token .eof 10]) = some 2 := rfl
  refine ⟨hindex, fun behind => ?_⟩
  obtain ⟨before', t, behind', hsplit, hfound, -, hdecided⟩ := parse_error_decided heof herror
  have hlength : before.length = before'.length := Option.some.inj (hindex.symm.trans hfound)
  obtain ⟨rfl, hrest⟩ := List.append_inj hsplit hlength
  obtain ⟨rfl, -⟩ := List.cons_eq_cons.1 hrest
  exact (hdecided behind).2 (by decide)

end Script
