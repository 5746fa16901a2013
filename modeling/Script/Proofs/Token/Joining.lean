import Script.Proofs.Grammar.Moving
import Script.Proofs.Token.Faults
import Script.Proofs.Token.Layout

/-!
# Texts on top of each other

The tokens of two texts with a line feed between them are the tokens of both: no lexeme and no
comment of the first reaches over the line feed, and the second is read as it would be alone, only
further down.

- `Position.down`: a position in a text that stands further down.
- `Scans.moved`: a text scans to the same tokens wherever it stands.
- `Scans.join`: what stands behind a line feed does not change the tokens before it.
- `scan_join`: the tokens of two texts on top of each other.
-/

namespace Script

/-! ## Further down -/

/-- The position a number of lines further down. -/
def Position.down (lines : Nat) (p : Position) : Position := ⟨p.line + lines, p.column⟩

/-- The number of lines that a text takes when another one follows below it. -/
def lineCount (source : String) : Nat := 1 + source.toList.count '\n'

namespace Position

variable {before text : List Char} {k : Nat}

theorem advance_down (k : Nat) (p : Position) (c : Char) :
    (p.down k).advance c = (p.advance c).down k := by
  unfold advance down
  split
  · simp only [mk.injEq, and_true]
    omega
  · rfl

theorem advanceAll_down (k : Nat) (p : Position) (cs : List Char) :
    (p.down k).advanceAll cs = (p.advanceAll cs).down k := by
  induction cs generalizing p with
  | nil => rfl
  | cons c cs ih => rw [advanceAll_cons, advanceAll_cons, advance_down, ih]

theorem line_advanceAll (p : Position) (cs : List Char) :
    (p.advanceAll cs).line = p.line + cs.count '\n' := by
  induction cs generalizing p with
  | nil => rfl
  | cons c cs ih =>
    rw [advanceAll_cons, ih]
    by_cases hc : c = '\n'
    · subst hc
      rw [advance_newline, List.count_cons_self]
      show p.line + 1 + _ = _
      omega
    · rw [advance_of_ne hc, List.count_cons_of_ne hc]

/-- Below a text, positions are further down by the lines that it takes. -/
theorem behind_below (above cs : List Char) :
    behind (above ++ '\n' :: cs) = (behind cs).down (1 + above.count '\n') := by
  have hsplit : above ++ '\n' :: cs = above ++ ['\n'] ++ cs := by simp
  have hstart : (behind above).advance '\n' = start.down (1 + above.count '\n') := by
    rw [advance_newline, ← advanceAll_start, line_advanceAll, Nat.add_assoc, Nat.add_comm _ 1]
    rfl
  rw [hsplit, behind_append, behind_concat, hstart, advanceAll_down, advanceAll_start]

end Position

/-! ## Scanning further down -/

variable {before before' text rest more : List Char} {tokens moreTokens : List Token}
  {μ : Position → Position}

/-- A text scans to the same tokens wherever it stands. -/
theorem Scans.moved (h : Scans before text tokens)
    (hμ : ∀ cs, Position.behind (before' ++ cs) = μ (.behind (before ++ cs))) :
    Scans before' text (tokens.map (Token.moved μ)) := by
  induction h generalizing before' with
  | last before gap hgap =>
    have hlast := Scans.last before' gap hgap
    rw [hμ] at hlast
    exact hlast
  | lexeme before gap text rest kind tokens hgap hspells hlongest hopens _ ih =>
    have hrest : Scans (before' ++ gap ++ text) rest _ := ih fun cs => by
      rw [List.append_assoc, List.append_assoc, hμ, List.append_assoc, List.append_assoc]
    have hnext := Scans.lexeme before' gap text rest kind _ hgap hspells hlongest hopens hrest
    rw [hμ] at hnext
    exact hnext

/-! ## Two texts -/

/-- No lexeme is continued over a line feed. -/
theorem stops_newline (more : List Char) : Stops ('\n' :: more) := by
  intro c hc
  obtain rfl := Option.some.inj hc
  decide

/-- A gap at the end of a text ends where a line feed follows. -/
theorem Gap.before_newline {gap : List Char} (h : Gap gap rest) (more : List Char) :
    Gap gap (rest ++ '\n' :: more) := by
  induction h with
  | nil => exact .nil _
  | blank c gap rest hc _ ih => exact .blank c gap _ hc ih
  | comment opener body gap rest hopener hbody hend _ ih =>
    refine .comment opener body gap _ hopener hbody ?_ ih
    rw [← List.append_assoc]
    cases hcs : gap ++ rest with
    | nil => simp
    | cons d ds =>
      rw [hcs] at hend
      simpa using hend

/-- **What stands below a text does not change its tokens**: they stand before those of the text
below, but for the end of input. -/
theorem Scans.join (h : Scans before text tokens) :
    ∃ body last, tokens = body ++ [last] ∧ last.kind = .eof ∧ (∀ t ∈ body, t.kind ≠ .eof) ∧
      ∀ more moreTokens, Scans (before ++ text ++ ['\n']) more moreTokens →
        Scans before (text ++ '\n' :: more) (body ++ moreTokens) := by
  induction h with
  | last before gap hgap =>
    refine ⟨[], _, rfl, rfl, by simp, fun more moreTokens hmore => ?_⟩
    have hnewline : Gap ['\n'] more := .blank '\n' [] more rfl (.nil _)
    have hgap' : Gap (gap ++ ['\n']) more := Gap.append (hgap.before_newline more) hnewline
    have hjoined := Scans.append_gap hgap' (by simpa using hmore)
    simpa using hjoined
  | lexeme before gap text rest kind tokens hgap hspells hlongest hopens _ ih =>
    obtain ⟨body, last, rfl, hlast, hbody, hbelow⟩ := ih
    refine ⟨⟨kind, String.ofList text, .behind (before ++ gap)⟩ :: body, last, rfl, hlast,
      List.forall_mem_cons.2 ⟨hspells.ne_eof, hbody⟩, fun more moreTokens hmore => ?_⟩
    have hrest := hbelow more moreTokens (by simpa using hmore)
    have hgap' := hgap.before_newline more
    rw [List.append_assoc] at hgap'
    have hopens' : ¬ ['/', '/'] <+: text ++ (rest ++ '\n' :: more) := by
      rw [← List.append_assoc]
      exact not_opens_append (by simp [hspells.ne_nil]) hopens (by simp)
    have hjoined := Scans.lexeme before gap text (rest ++ '\n' :: more) kind _ hgap' hspells
      (hlongest.append hspells (stops_newline more)) hopens' hrest
    simpa using hjoined

/-- The tokens of two texts on top of each other: those of the first but for the end of input, and
those of the second further down. -/
theorem scan_join {above below : String} {tokens belowTokens : List Token}
    (habove : scan above = .ok tokens) (hbelow : scan below = .ok belowTokens) :
    ∃ body last, tokens = body ++ [last] ∧ last.kind = .eof ∧ (∀ t ∈ body, t.kind ≠ .eof) ∧
      scan (above ++ "\n" ++ below) =
        .ok (body ++ belowTokens.map (Token.moved (.down (lineCount above)))) := by
  obtain ⟨body, last, htokens, hlast, hbody, hjoin⟩ := (scan_eq_ok_iff_scans.1 habove).join
  refine ⟨body, last, htokens, hlast, hbody, scan_eq_ok_iff_scans.2 ?_⟩
  have hmoved : Scans (above.toList ++ ['\n']) below.toList
      (belowTokens.map (Token.moved (.down (lineCount above)))) :=
    (scan_eq_ok_iff_scans.1 hbelow).moved fun cs => by
      rw [List.append_assoc, List.singleton_append, Position.behind_below, List.nil_append]
      rfl
  have hscans := hjoin below.toList _ hmoved
  simpa using hscans

end Script
