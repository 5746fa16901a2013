import Script.Proofs.Token.Lexemes
import Script.Proofs.Token.Positions

/-!
# The tokens of a text tile it

A text that is read without a fault is cut into gaps and lexemes without remainder: each lexeme is
the longest at its place and has one token, each token has one lexeme, and the gaps consist of
blanks and comments only.

- `Gap`: a stretch of blanks and comments, in front of what follows it.
- `Scans`: the tokens of a stretch of text, one gap and one lexeme at a time.
- `scan_eq_ok_iff_scans`: a text is read into exactly the tokens that it scans to.
- `Tile`, `Tiling`: a cut of a whole text into gaps and lexemes, with the place of each lexeme.
- `scan_tiles_source`: the tokens of a text come from a tiling of it.
-/

namespace Script

/-! ## Gaps -/

/-- The stretch `gap` consists of blanks and comments, where `rest` is the text behind it. A
comment runs up to the next line feed, or to the end of the text. -/
inductive Gap : (gap rest : List Char) → Prop
  | nil (rest : List Char) : Gap [] rest
  | blank (c : Char) (gap rest : List Char) (hc : isBlank c) (hgap : Gap gap rest) :
      Gap (c :: gap) rest
  | comment (opener body gap rest : List Char) (hopener : opener = ['#'] ∨ opener = ['/', '/'])
      (hbody : '\n' ∉ body) (hend : ∀ d ∈ (gap ++ rest).head?, d = '\n') (hgap : Gap gap rest) :
      Gap (opener ++ body ++ gap) rest

theorem Gap.append {gap gap' rest : List Char} (h : Gap gap (gap' ++ rest)) (h' : Gap gap' rest) :
    Gap (gap ++ gap') rest := by
  generalize hbehind : gap' ++ rest = behind at h
  induction h with
  | nil => exact h'
  | blank c gap behind hc _ ih => exact .blank c _ _ hc (ih hbehind)
  | comment opener body gap behind hopener hbody hend _ ih =>
    subst hbehind
    rw [List.append_assoc]
    exact .comment opener body _ _ hopener hbody (by simpa using hend) (ih rfl)

theorem opensComment_iff {c : Char} {cs : List Char} :
    opensComment c cs ↔ c = '#' ∨ ['/', '/'] <+: c :: cs := by
  simp only [opensComment, Bool.or_eq_true, Bool.and_eq_true, decide_eq_true_eq]
  refine or_congr Iff.rfl ?_
  rw [List.cons_prefix_cons, eq_comm]
  refine and_congr Iff.rfl ?_
  cases cs with
  | nil => simp
  | cons d ds => simp [eq_comm]

/-- What is read over where a comment opens: how it begins, and the rest of the line. -/
theorem exists_comment_of_opens {c : Char} {cs : List Char} (h : opensComment c cs) :
    ∃ opener body, c :: cs.takeWhile (· ≠ '\n') = opener ++ body ∧
      (opener = ['#'] ∨ opener = ['/', '/']) ∧ '\n' ∉ body := by
  rcases opensComment_iff.1 h with rfl | ⟨ds, hds⟩
  · exact ⟨['#'], _, rfl, .inl rfl, notMem_takeWhile_ne '\n' cs⟩
  · obtain ⟨rfl, rfl⟩ : '/' = c ∧ '/' :: ds = cs := by simpa using hds
    exact ⟨['/', '/'], ds.takeWhile (· ≠ '\n'), by simp, .inr rfl, notMem_takeWhile_ne '\n' ds⟩

/-- Behind the rest of a line stands a line feed or nothing. -/
theorem head_dropWhile_newline (cs : List Char) :
    ∀ d ∈ (cs.dropWhile (· ≠ '\n')).head?, d = '\n' := by
  intro d hd
  obtain ⟨ds, hds⟩ := List.head?_eq_some_iff.1 hd
  simpa using eq_false_of_dropWhile_eq hds

/-- A comment at the head of a text is a gap. -/
theorem gap_of_opensComment {c : Char} {cs : List Char} (h : opensComment c cs) :
    Gap (c :: cs.takeWhile (· ≠ '\n')) (cs.dropWhile (· ≠ '\n')) := by
  obtain ⟨opener, body, htext, hopener, hbody⟩ := exists_comment_of_opens h
  rw [htext]
  simpa using Gap.comment opener body [] _ hopener hbody
    (by simpa using head_dropWhile_newline cs) (.nil _)

/-! ## Reading over a gap -/

section Steps

variable {pos : Position} {done : List Token} {c : Char} {cs : List Char}

theorem scanFrom_blank (hc : isBlank c) :
    scanFrom pos done (c :: cs) = scanFrom (pos.advance c) done cs := by
  rw [scanFrom, if_pos hc]

theorem scanFrom_comment (hc : opensComment c cs) :
    scanFrom pos done (c :: cs) =
      scanFrom (pos.advanceAll (c :: cs.takeWhile (· ≠ '\n'))) done (cs.dropWhile (· ≠ '\n')) := by
  have hblank : isBlank c = false := by
    rcases opensComment_iff.1 hc with rfl | hslashes
    · rfl
    · obtain ⟨rfl, -⟩ := List.cons_prefix_cons.1 hslashes
      rfl
  rw [scanFrom, if_neg (by simp [hblank]), if_pos hc]

theorem scanFrom_lexeme {l : Lexeme} (hblank : isBlank c = false)
    (hcomment : opensComment c cs = false) (h : readLexeme pos c cs = .ok l) :
    scanFrom pos done (c :: cs) =
      scanFrom (pos.advanceAll l.text) (⟨l.kind, String.ofList l.text, pos⟩ :: done) l.rest := by
  rw [scanFrom, if_neg (by simp [hblank]), if_neg (by simp [hcomment])]
  split
  · rename_i hread
    cases h.symm.trans hread
  · rename_i hread
    cases h.symm.trans hread
    rfl

/-- Nothing but the position changes over a gap. -/
theorem scanFrom_gap {gap rest : List Char} (h : Gap gap rest) :
    scanFrom pos done (gap ++ rest) = scanFrom (pos.advanceAll gap) done rest := by
  induction h generalizing pos with
  | nil => rfl
  | blank c gap rest hc _ ih =>
    rw [List.cons_append, scanFrom_blank hc, ih, Position.advanceAll_cons]
  | comment opener body gap rest hopener hbody hend _ ih =>
    have hrun := forall_ne_of_notMem hbody
    have hstop : ∀ d ∈ (gap ++ rest).head?, decide (d ≠ '\n') = false := by simpa using hend
    rcases hopener with rfl | rfl
    · have hopens : opensComment '#' (body ++ (gap ++ rest)) := rfl
      have hsplit : ['#'] ++ body ++ gap ++ rest = '#' :: (body ++ (gap ++ rest)) := by simp
      rw [hsplit, scanFrom_comment hopens, takeWhile_eq_of_stop hrun hstop,
        dropWhile_eq_of_stop hrun hstop, ih, Position.advanceAll_append]
      rfl
    · have hopens : opensComment '/' ('/' :: body ++ (gap ++ rest)) := rfl
      have hrun' : ∀ d ∈ '/' :: body, decide (d ≠ '\n') = true :=
        List.forall_mem_cons.2 ⟨rfl, hrun⟩
      have hsplit : ['/', '/'] ++ body ++ gap ++ rest = '/' :: ('/' :: body ++ (gap ++ rest)) := by
        simp
      rw [hsplit, scanFrom_comment hopens, takeWhile_eq_of_stop hrun' hstop,
        dropWhile_eq_of_stop hrun' hstop, ih, Position.advanceAll_append]
      rfl

end Steps

/-! ## One gap and one lexeme at a time -/

/-- The text `text`, which stands behind `before`, scans to the tokens `tokens`: a gap and a longest
lexeme for each token, and a last gap for the end of input. No comment opens at a lexeme. -/
inductive Scans : (before text : List Char) → (tokens : List Token) → Prop
  | last (before gap : List Char) (hgap : Gap gap []) :
      Scans before gap [⟨.eof, "", .behind (before ++ gap)⟩]
  | lexeme (before gap text rest : List Char) (kind : TokenKind) (tokens : List Token)
      (hgap : Gap gap (text ++ rest)) (hspells : Spells text kind) (hlongest : Longest text rest)
      (hopens : ¬ ['/', '/'] <+: text ++ rest)
      (hrest : Scans (before ++ gap ++ text) rest tokens) :
      Scans before (gap ++ text ++ rest)
        (⟨kind, String.ofList text, .behind (before ++ gap)⟩ :: tokens)

/-- A gap in front of a text becomes a part of the first gap of the text. -/
theorem Scans.append_gap {before gap text : List Char} {tokens : List Token} (hgap : Gap gap text)
    (h : Scans (before ++ gap) text tokens) : Scans before (gap ++ text) tokens := by
  cases h with
  | last _ _ hgap' =>
    rw [List.append_assoc]
    exact .last before (gap ++ text) (Gap.append (by simpa using hgap) hgap')
  | lexeme _ gap' lexeme rest kind tokens hgap' hspells hlongest hopens hrest =>
    have hjoined : Gap (gap ++ gap') (lexeme ++ rest) :=
      Gap.append (by simpa using hgap) hgap'
    have hnext := Scans.lexeme before (gap ++ gap') lexeme rest kind tokens hjoined hspells hlongest
      hopens (by simpa using hrest)
    simpa using hnext

/-- No lexeme begins with a blank or opens a comment with a number sign. -/
theorem Spells.head {c : Char} {cs : List Char} {kind : TokenKind} (h : Spells (c :: cs) kind) :
    isBlank c = false ∧ c ≠ '#' := by
  have hread : readLexeme .start c cs = .ok ⟨kind, c :: cs, []⟩ :=
    readLexeme_of_spells .start h (longest_nil _) (by simp)
  constructor
  · rw [Bool.eq_false_iff]
    intro hc
    simp only [isBlank, Bool.or_eq_true, decide_eq_true_eq] at hc
    rcases hc with ((rfl | rfl) | rfl) | rfl <;> cases hread
  · rintro rfl
    cases hread

/-- The tokens read are those that the text scans to. -/
theorem scans_of_scanFrom {pos : Position} {done tokens : List Token} {before cs : List Char}
    (hpos : pos = .behind before) (h : scanFrom pos done cs = .ok tokens) :
    ∃ rest, Scans before cs rest ∧ tokens = done.reverse ++ rest := by
  fun_induction scanFrom pos done cs generalizing before with
  | case1 pos done =>
    cases h
    refine ⟨_, .last before [] (.nil _), ?_⟩
    simp [hpos]
  | case2 pos done c cs hc ih =>
    have hnext : pos.advance c = .behind (before ++ [c]) := by rw [hpos, Position.behind_concat]
    obtain ⟨rest, hrest, rfl⟩ := ih hnext h
    exact ⟨rest, hrest.append_gap (.blank c [] cs hc (.nil _)), rfl⟩
  | case3 pos done c cs _ hc ih =>
    have hnext : pos.advanceAll (c :: cs.takeWhile (· ≠ '\n')) =
        .behind (before ++ c :: cs.takeWhile (· ≠ '\n')) := by
      rw [hpos, Position.behind_append]
    obtain ⟨rest, hrest, rfl⟩ := ih hnext h
    have := hrest.append_gap (gap_of_opensComment hc)
    rw [List.cons_append, List.takeWhile_append_dropWhile] at this
    exact ⟨rest, this, rfl⟩
  | case4 => cases h
  | case5 pos done c cs _ hc l hread ih =>
    have hnext : pos.advanceAll l.text = .behind (before ++ [] ++ l.text) := by
      rw [hpos, Position.behind_append, List.append_nil]
    obtain ⟨rest, hrest, rfl⟩ := ih hnext h
    obtain ⟨hspells, hlongest, htext⟩ := readLexeme_eq_ok_iff.1 hread
    have hopens : ¬ ['/', '/'] <+: l.text ++ l.rest := by
      rw [htext]
      exact fun hslashes => hc (opensComment_iff.2 (.inr hslashes))
    have := Scans.lexeme before [] l.text l.rest l.kind rest (.nil _) hspells hlongest hopens hrest
    rw [List.nil_append, htext, List.append_nil, ← hpos] at this
    exact ⟨_, this, by simp⟩

/-- What a text scans to is read. -/
theorem Scans.scanFrom_eq {before text : List Char} {tokens : List Token}
    (h : Scans before text tokens) (done : List Token) :
    scanFrom (.behind before) done text = .ok (done.reverse ++ tokens) := by
  induction h generalizing done with
  | last before gap hgap =>
    have hread : scanFrom (.behind before) done (gap ++ []) = _ := scanFrom_gap hgap
    rw [List.append_nil, ← Position.behind_append, scanFrom] at hread
    simpa using hread
  | lexeme before gap text rest kind tokens hgap hspells hlongest hopens _ ih =>
    obtain ⟨c, cs, rfl⟩ := List.exists_cons_of_ne_nil hspells.ne_nil
    obtain ⟨hblank, hhash⟩ := hspells.head
    have hcomment : opensComment c (cs ++ rest) = false :=
      Bool.eq_false_iff.2 fun hc => (opensComment_iff.1 hc).elim hhash hopens
    have hread := readLexeme_of_spells (.behind (before ++ gap)) hspells hlongest
      (List.cons_append ..)
    rw [List.append_assoc, scanFrom_gap hgap, ← Position.behind_append, List.cons_append,
      scanFrom_lexeme hblank hcomment hread, ← Position.behind_append, ih]
    simp

/-- A text is read into exactly the tokens that it scans to. -/
theorem scan_eq_ok_iff_scans {source : String} {tokens : List Token} :
    scan source = .ok tokens ↔ Scans [] source.toList tokens := by
  constructor
  · intro h
    obtain ⟨rest, hrest, rfl⟩ := scans_of_scanFrom Position.behind_nil.symm h
    exact hrest
  · intro h
    exact h.scanFrom_eq []

/-! ## The tiling of a whole text -/

/-- A piece of a text: a gap, and the token behind it. -/
structure Tile where
  gap : List Char
  token : Token

namespace Tile

/-- The characters of the token. -/
def lexeme (tile : Tile) : List Char := tile.token.lexeme.toList

/-- The characters of the piece. -/
def text (tile : Tile) : List Char := tile.gap ++ tile.lexeme

/-- The tile is right at its place in `source`, where `before` stands before it and `after` behind
it. The ends of the lexeme are byte offsets. -/
structure Fits (source : String) (before : List Char) (tile : Tile) (after : List Char) :
    Prop where
  gap : Gap tile.gap (tile.lexeme ++ after)
  uncommented : ¬ ['/', '/'] <+: tile.lexeme ++ after
  spells : ∀ kind, Spells tile.lexeme kind ↔ kind = tile.token.kind
  longest : Longest tile.lexeme after
  start_valid : String.Pos.Raw.IsValid source ⟨(utf8Bytes (before ++ tile.gap)).length⟩
  stop_valid : String.Pos.Raw.IsValid source ⟨(utf8Bytes (before ++ tile.text)).length⟩
  pos : tile.token.pos = .behind (before ++ tile.gap)

end Tile

/-- The pieces `tiles` and the gap `last` behind them are together the text `source`, and `tokens`
are the tokens of the pieces with the end of input behind them. -/
structure Tiling (source : String) (tiles : List Tile) (last : List Char) (tokens : List Token) :
    Prop where
  joined : source.toList = tiles.flatMap Tile.text ++ last
  last_gap : Gap last []
  tokens_eq : tokens = tiles.map Tile.token ++ [⟨.eof, "", .behind source.toList⟩]
  ne_eof : ∀ tile ∈ tiles, tile.token.kind ≠ .eof
  fits : ∀ before tile after, tiles = before ++ tile :: after →
    tile.Fits source (before.flatMap Tile.text) (after.flatMap Tile.text ++ last)

/-- The bytes of a part of a text that begins where the text begins end at a character boundary. -/
theorem isValid_utf8Bytes {source : String} {before : List Char} (after : List Char)
    (h : source.toList = before ++ after) :
    String.Pos.Raw.IsValid source ⟨(utf8Bytes before).length⟩ := by
  refine String.Pos.Raw.isValid_iff_exists_append.2 ⟨.ofList before, .ofList after, ?_, ?_⟩
  · rw [← String.ofList_append, ← h, String.ofList_toList]
  · simp [utf8Bytes, String.rawEndPos, String.utf8ByteSize]

theorem Spells.ne_eof {text : List Char} {kind : TokenKind} (h : Spells text kind) :
    kind ≠ .eof := by
  cases h <;> simp

/-- The tile of a gap and a longest lexeme is right where these stand. -/
theorem Tile.fits_of_spells {source : String} {before gap text rest : List Char} {kind : TokenKind}
    (hgap : Gap gap (text ++ rest)) (hspells : Spells text kind) (hlongest : Longest text rest)
    (hopens : ¬ ['/', '/'] <+: text ++ rest)
    (hsource : source.toList = before ++ gap ++ text ++ rest) :
    Fits source before ⟨gap, ⟨kind, String.ofList text, .behind (before ++ gap)⟩⟩ rest := by
  have hlexeme : (String.ofList text).toList = text := String.toList_ofList
  exact {
    gap := by rwa [lexeme, hlexeme]
    uncommented := by rwa [lexeme, hlexeme]
    spells := fun kind' => by
      rw [lexeme, hlexeme]
      exact ⟨fun h => h.unique hspells, fun h => h ▸ hspells⟩
    longest := by rwa [lexeme, hlexeme]
    start_valid := isValid_utf8Bytes (text ++ rest) (by simpa using hsource)
    stop_valid := isValid_utf8Bytes rest (by simpa [Tile.text, lexeme] using hsource)
    pos := rfl }

/-- What a stretch of text scans to is a cut of it into tiles that fit where they stand. -/
theorem Scans.exists_tiles {source : String} {before text : List Char} {tokens : List Token}
    (h : Scans before text tokens) (hsource : source.toList = before ++ text) :
    ∃ tiles last, text = tiles.flatMap Tile.text ++ last ∧ Gap last [] ∧
      tokens = tiles.map Tile.token ++ [⟨.eof, "", .behind source.toList⟩] ∧
      (∀ tile ∈ tiles, tile.token.kind ≠ .eof) ∧
      ∀ front tile after, tiles = front ++ tile :: after →
        tile.Fits source (before ++ front.flatMap Tile.text) (after.flatMap Tile.text ++ last) := by
  induction h with
  | last before gap hgap =>
    refine ⟨[], gap, rfl, hgap, by rw [hsource]; rfl, by simp, ?_⟩
    intro front tile after hsplit
    simp at hsplit
  | lexeme before gap text rest kind tokens hgap hspells hlongest hopens _ ih =>
    have hsource' : source.toList = before ++ gap ++ text ++ rest := by simpa using hsource
    obtain ⟨tiles, last, hrest, hlast, htokens, hkinds, hfits⟩ := ih hsource'
    have hfirst := Tile.fits_of_spells hgap hspells hlongest hopens hsource'
    let first : Tile := ⟨gap, ⟨kind, String.ofList text, .behind (before ++ gap)⟩⟩
    have htext : first.text = gap ++ text := congrArg (gap ++ ·) String.toList_ofList
    refine ⟨first :: tiles, last, ?_, hlast, ?_, ?_, ?_⟩
    · simp only [List.flatMap_cons, htext, hrest, List.append_assoc]
    · rw [htokens]
      rfl
    · exact List.forall_mem_cons.2 ⟨hspells.ne_eof, hkinds⟩
    · intro front tile after hsplit
      cases front with
      | nil =>
        obtain ⟨rfl, rfl⟩ := List.cons.inj hsplit
        simpa [hrest] using hfirst
      | cons head front =>
        obtain ⟨rfl, rfl⟩ := List.cons.inj hsplit
        simpa [htext] using hfits front tile after rfl

/-- The tokens of a text come from a tiling of it: gaps of blanks and comments, and between them
the longest lexemes, each with the token that it spells, at the position that counting the bytes
before it gives. -/
theorem scan_tiles_source {source : String} {tokens : List Token} (h : scan source = .ok tokens) :
    ∃ tiles last, Tiling source tiles last tokens := by
  obtain ⟨tiles, last, hjoined, hlast, htokens, hkinds, hfits⟩ :=
    (scan_eq_ok_iff_scans.1 h).exists_tiles rfl
  exact ⟨tiles, last, hjoined, hlast, htokens, hkinds, by simpa using hfits⟩

/-- A comment and a quoted text that hold characters of two bytes and a line feed. -/
theorem scan_tiles_source_quotedLines :
    ∃ tiles last, Tiling "# é\nprint \"ü\n\";//x" tiles last
      [⟨.keyword .printKw, "print", ⟨2, 1⟩⟩, ⟨.string "ü\n", "\"ü\n\"", ⟨2, 7⟩⟩,
        ⟨.punct .semicolon, ";", ⟨3, 2⟩⟩, ⟨.eof, "", ⟨3, 6⟩⟩] :=
  scan_tiles_source (by decide +kernel)

end Script
