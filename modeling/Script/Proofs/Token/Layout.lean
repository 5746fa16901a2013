import Script.Proofs.Token.Tiling

/-!
# Writing tokens out

Lexemes that are written out with blanks between them are read back as they were written, whatever
else stands in the gaps.

- `Padding`, `Closing`: what can be written in front of a lexeme, and behind the last one.
- `Piece`, `Piece.Separated`: lexemes with the gaps in front of them; from the second on a gap
  begins with a blank.
- `Spells.not_continued`, `Longest.append`: which characters end a lexeme. A blank does, so what is
  written is the longest lexeme there.
- `scan_written`: scanning undoes writing.
-/

namespace Script

/-! ## Gaps that can stand anywhere -/

/-- How comments begin. -/
def IsOpener (opener : List Char) : Prop := opener = ['#'] ∨ opener = ['/', '/']

/-- Blanks and comments. Every comment ends with a line feed, whatever follows. -/
inductive Padding : List Char → Prop
  | nil : Padding []
  | blank (c : Char) (cs : List Char) (hc : isBlank c) (hcs : Padding cs) : Padding (c :: cs)
  | comment (opener body cs : List Char) (hopener : IsOpener opener) (hbody : '\n' ∉ body)
      (hcs : Padding cs) : Padding (opener ++ body ++ '\n' :: cs)

/-- Blanks and comments, the last of which may end with the text. -/
inductive Closing : List Char → Prop
  | padding (cs : List Char) (hcs : Padding cs) : Closing cs
  | comment (cs opener body : List Char) (hcs : Padding cs) (hopener : IsOpener opener)
      (hbody : '\n' ∉ body) : Closing (cs ++ (opener ++ body))

/-- Padding is a gap in front of any text. -/
theorem Padding.gap {cs : List Char} (h : Padding cs) (rest : List Char) : Gap cs rest := by
  induction h with
  | nil => exact .nil rest
  | blank c cs hc _ ih => exact .blank c cs rest hc ih
  | comment opener body cs hopener hbody _ ih =>
    have hline : Gap ('\n' :: cs) rest := .blank '\n' cs rest rfl ih
    exact .comment opener body ('\n' :: cs) rest hopener hbody (by simp) hline

theorem Closing.gap {cs : List Char} (h : Closing cs) : Gap cs [] := by
  cases h with
  | padding cs hcs => exact hcs.gap []
  | comment cs opener body hcs hopener hbody =>
    have hlast : Gap (opener ++ body ++ []) [] :=
      .comment opener body [] [] hopener hbody (by simp) (.nil [])
    rw [List.append_nil] at hlast
    exact Gap.append (hcs.gap _) hlast

/-! ## What ends a lexeme -/

/-- Characters that stand in lexemes behind the first character, quoted texts apart. -/
def isInner (c : Char) : Bool := isWordPart c || c = '.' || c = '='

/-- Nothing follows, or a character that is not inside a lexeme. -/
def Stops (rest : List Char) : Prop := ∀ c ∈ rest.head?, isInner c = false

/-- Behind a lexeme nothing stands, or a blank. -/
def Apart (rest : List Char) : Prop := ∀ c ∈ rest.head?, isBlank c

theorem isInner_eq_false_of_isBlank {c : Char} (hc : isBlank c) : isInner c = false := by
  simp only [isBlank, Bool.or_eq_true, decide_eq_true_eq] at hc
  rcases hc with ((rfl | rfl) | rfl) | rfl <;> decide

theorem Apart.stops {rest : List Char} (h : Apart rest) : Stops rest :=
  fun c hc => isInner_eq_false_of_isBlank (h c hc)

theorem isInner_of_isWordPart {c : Char} (hc : isWordPart c) : isInner c := by
  simp [isInner, hc]

theorem isWordPart_of_isDigit {c : Char} (hc : c.isDigit) : isWordPart c := by
  simp [isWordPart, Char.isAlphanum, hc]

/-- Only quoted texts hold other characters behind the first. -/
theorem Spells.isInner_of_mem_tail {text : List Char} {kind : TokenKind} (h : Spells text kind)
    (hquote : ∀ body, kind ≠ .string body) {c : Char} (hc : c ∈ text.tail) : isInner c := by
  have hdigit : ∀ run : List Char, (∀ d ∈ run, d.isDigit) → c ∈ run → isInner c :=
    fun run hrun hmem => isInner_of_isWordPart (isWordPart_of_isDigit (hrun c hmem))
  cases h with
  | sign sign =>
    have hall : sign.spelling.toList.tail.all isInner = true := by cases sign <;> decide
    exact List.all_eq_true.1 hall c hc
  | keyword word =>
    obtain ⟨d, ds, hspelling, -, hds⟩ := word.spelling_eq_word
    rw [hspelling] at hc
    exact isInner_of_isWordPart (hds c hc)
  | ident d ds hd hds => exact isInner_of_isWordPart (hds c hc)
  | whole digits number hne hdigits => exact hdigit _ hdigits (List.mem_of_mem_tail hc)
  | decimal whole fraction number hne hwhole hne' hfraction =>
    rcases List.mem_append.1 (List.mem_of_mem_tail hc) with hc | hc
    · exact hdigit _ hwhole hc
    · rcases List.mem_cons.1 hc with rfl | hc
      · rfl
      · exact hdigit _ hfraction hc
  | string body => exact absurd rfl (hquote _)

/-- A lexeme that begins with a quote is a quoted text. -/
theorem Spells.eq_quoted {cs : List Char} {kind : TokenKind} (h : Spells ('"' :: cs) kind) :
    ∃ body, cs = body ++ ['"'] := by
  have hread : readString .start cs = .ok ⟨kind, '"' :: cs, []⟩ :=
    readLexeme_of_spells .start h (longest_nil _) (List.append_nil _)
  unfold readString at hread
  split at hread
  · cases hread
  · rename_i quote rest hrest
    have hquote : quote = '"' := by simpa using eq_false_of_dropWhile_eq hrest
    obtain ⟨-, htext, -⟩ := Lexeme.mk.inj (Except.ok.inj hread)
    exact ⟨cs.takeWhile (· ≠ '"'), hquote ▸ (List.cons.inj htext).2.symm⟩

/-- No lexeme is another one with more behind it that holds such a character. -/
theorem Spells.not_continued {text more : List Char} {kind kind' : TokenKind} {c : Char}
    (h : Spells text kind) (hc : isInner c = false) (hmore : c ∈ more) :
    ¬ Spells (text ++ more) kind' := by
  intro hlonger
  obtain ⟨d, ds, rfl⟩ := List.exists_cons_of_ne_nil h.ne_nil
  by_cases hquote : ∃ body, kind' = .string body
  · obtain ⟨body, rfl⟩ := hquote
    generalize hother : d :: ds ++ more = other at hlonger
    cases hlonger with
    | string body hbody =>
      -- the shorter one would be quoted too, and its last quote would stand inside the longer one
      obtain ⟨rfl, htail⟩ : d = '"' ∧ ds ++ more = body ++ ['"'] := by simpa using hother
      obtain ⟨inner, rfl⟩ := h.eq_quoted
      have hinner := congrArg List.dropLast htail
      rw [List.append_assoc, List.dropLast_append_of_ne_nil (by simp), List.dropLast_concat,
        List.singleton_append, List.dropLast_cons_of_ne_nil (List.ne_nil_of_mem hmore)] at hinner
      subst hinner
      exact hbody (by simp)
  · have hinner := hlonger.isInner_of_mem_tail (fun body heq => hquote ⟨body, heq⟩)
      (List.mem_append_right ds hmore)
    rw [hc] at hinner
    cases hinner

/-- **A longest lexeme stays the longest where no lexeme is continued**, however far behind. -/
theorem Longest.append {text rest more : List Char} {kind : TokenKind} (h : Longest text rest)
    (hspells : Spells text kind) (hmore : Stops more) : Longest text (rest ++ more) := by
  intro other kind' hother hprefix
  rw [← List.append_assoc] at hprefix
  rcases Nat.le_total other.length (text ++ rest).length with hle | hle
  · -- a lexeme that ends before `more` was there before
    exact h other kind' hother
      (List.prefix_of_prefix_length_le hprefix (List.prefix_append ..) hle)
  · obtain ⟨tail, rfl⟩ := List.prefix_of_prefix_length_le (List.prefix_append ..) hprefix hle
    cases tail with
    | nil =>
      rw [List.append_nil] at hother ⊢
      exact h _ kind' hother (List.prefix_refl _)
    | cons c tail =>
      obtain ⟨after, rfl⟩ := (List.prefix_append_right_inj _).1 hprefix
      rw [List.append_assoc] at hother
      exact absurd hother (hspells.not_continued (hmore c rfl) (by simp))

/-- What is written in front of a blank, or at the end, is the longest lexeme there. -/
theorem Spells.longest {text rest : List Char} {kind : TokenKind} (h : Spells text kind)
    (hrest : Apart rest) : Longest text rest :=
  (longest_nil text).append h hrest.stops

/-- No lexeme is a comment. -/
theorem Spells.not_opens_self {text : List Char} {kind : TokenKind} (h : Spells text kind) :
    ¬ ['/', '/'] <+: text := by
  rintro ⟨tail, rfl⟩
  -- two slashes read as one lexeme would be a sign, but no sign is written so
  have hread : readLexeme .start '/' ('/' :: tail) = .ok ⟨kind, '/' :: '/' :: tail, []⟩ :=
    readLexeme_of_spells .start h (longest_nil _) (List.append_nil _)
  obtain ⟨-, htext, -⟩ := Lexeme.mk.inj (Except.ok.inj hread)
  cases htext

/-- A comment begins where two texts meet only if the first one is a slash. -/
theorem not_opens_append {text more : List Char} (hne : text ≠ []) (h : ¬ ['/', '/'] <+: text)
    (hmore : text = ['/'] → more.head? ≠ some '/') : ¬ ['/', '/'] <+: text ++ more := by
  intro hopens
  obtain ⟨c, cs, rfl⟩ := List.exists_cons_of_ne_nil hne
  obtain ⟨rfl, hsecond⟩ := List.cons_prefix_cons.1 hopens
  cases cs with
  | nil =>
    obtain ⟨tail, rfl⟩ := hsecond
    exact hmore rfl rfl
  | cons d ds =>
    obtain ⟨rfl, -⟩ := List.cons_prefix_cons.1 hsecond
    exact h (by simp)

/-- In front of a blank, or at the end, no lexeme opens a comment. -/
theorem Spells.not_opens {text rest : List Char} {kind : TokenKind} (h : Spells text kind)
    (hrest : Apart rest) : ¬ ['/', '/'] <+: text ++ rest :=
  not_opens_append h.ne_nil h.not_opens_self fun _ hslash => absurd (hrest '/' hslash) (by decide)

/-! ## Writing and scanning -/

/-- A lexeme to be written: the gap in front of it, its characters, and the token they spell. -/
structure Piece where
  gap : List Char
  lexeme : List Char
  kind : TokenKind

namespace Piece

/-- The text of a lexeme and the gap in front of it. -/
def text (p : Piece) : List Char := p.gap ++ p.lexeme

/-- What a token shows of a lexeme: its kind with what it stands for, and its characters. -/
def shown (p : Piece) : TokenKind × String := (p.kind, String.ofList p.lexeme)

/-- The pieces hold lexemes, with gaps of blanks and comments in front of them and `last` behind
them. What stands behind a lexeme begins with a blank; only the end of the text may follow at
once. -/
structure Separated (pieces : List Piece) (last : List Char) : Prop where
  spells : ∀ p ∈ pieces, Spells p.lexeme p.kind
  padding : ∀ p ∈ pieces, Padding p.gap
  blank : ∀ p ∈ pieces.tail, p.gap.head?.any isBlank = true
  closing : Closing last
  last : pieces ≠ [] → Apart last

/-- Behind the first lexeme stands a blank or nothing. -/
theorem Separated.apart {p : Piece} {ps : List Piece} {last : List Char}
    (h : Separated (p :: ps) last) : Apart (ps.flatMap text ++ last) := by
  intro c hc
  cases ps with
  | nil => exact h.last (List.cons_ne_nil _ _) c hc
  | cons q qs =>
    obtain ⟨d, hd, hblank⟩ := (Option.any_eq_true ..).1 (h.blank q List.mem_cons_self)
    obtain ⟨gap, hgap⟩ := List.head?_eq_some_iff.1 hd
    simp only [List.flatMap_cons, text, hgap, List.cons_append, List.head?_cons,
      Option.mem_some_iff] at hc
    exact hc ▸ hblank

theorem Separated.tail {p : Piece} {ps : List Piece} {last : List Char}
    (h : Separated (p :: ps) last) : Separated ps last where
  spells q hq := h.spells q (List.mem_cons_of_mem _ hq)
  padding q hq := h.padding q (List.mem_cons_of_mem _ hq)
  blank q hq := h.blank q (List.mem_of_mem_tail hq)
  closing := h.closing
  last _ := h.last (List.cons_ne_nil _ _)

/-- Written pieces scan to a token for each, and the end of input. -/
theorem Separated.scans {pieces : List Piece} {last : List Char} (h : Separated pieces last)
    (before : List Char) :
    ∃ tokens, Scans before (pieces.flatMap text ++ last) tokens ∧
      tokens.map (fun t => (t.kind, t.lexeme)) = pieces.map shown ++ [(.eof, "")] := by
  induction pieces generalizing before with
  | nil => exact ⟨_, .last before last h.closing.gap, rfl⟩
  | cons p ps ih =>
    obtain ⟨tokens, hscans, hshown⟩ := ih h.tail (before ++ p.gap ++ p.lexeme)
    have hspells := h.spells p List.mem_cons_self
    have hgap := (h.padding p List.mem_cons_self).gap
    have hnext := Scans.lexeme before p.gap p.lexeme _ p.kind tokens (hgap _) hspells
      (hspells.longest h.apart) (hspells.not_opens h.apart) hscans
    refine ⟨⟨p.kind, String.ofList p.lexeme, .behind (before ++ p.gap)⟩ :: tokens, ?_, ?_⟩
    · simpa [text] using hnext
    · exact congrArg (p.shown :: ·) hshown

/-- **Scanning undoes writing.** Whatever lexemes are written out, with whatever blanks and comments
between them, as long as a blank follows each lexeme: the tokens read are those of the lexemes, with
their characters and what they stand for, and the end of input behind them. -/
theorem scan_written {pieces : List Piece} {last : List Char} (h : Separated pieces last) :
    ∃ tokens, scan (String.ofList (pieces.flatMap text ++ last)) = .ok tokens ∧
      tokens.map (fun t => (t.kind, t.lexeme)) = pieces.map shown ++ [(.eof, "")] := by
  obtain ⟨tokens, hscans, hshown⟩ := h.scans []
  refine ⟨tokens, scan_eq_ok_iff_scans.2 ?_, hshown⟩
  rwa [String.toList_ofList]

/-- A slash in front of a comment, slashes in quotes, and a number in front of a point. -/
theorem scan_written_slashes :
    ∃ tokens, scan "#a\n/ //b\n\t\"//\n\" 1\n. # c" = .ok tokens ∧
      tokens.map (fun t => (t.kind, t.lexeme)) =
        [(.punct .slash, "/"), (.string "//\n", "\"//\n\""),
          (.number 1, "1"), (.punct .dot, "."), (.eof, "")] := by
  have hone : Decimal.toFloat ['1'] [] = 1 := by decide
  refine @scan_written [
    ⟨['#', 'a', '\n'], ['/'], .punct .slash⟩,
    ⟨[' ', '/', '/', 'b', '\n', '\t'], ['"', '/', '/', '\n', '"'], .string "//\n"⟩,
    ⟨[' '], ['1'], .number 1⟩,
    ⟨['\n'], ['.'], .punct .dot⟩] [' ', '#', ' ', 'c'] ⟨?_, ?_, ?_, ?_, ?_⟩
  · simp only [List.forall_mem_cons, List.not_mem_nil, false_imp_iff, implies_true, and_true]
    exact ⟨.sign .slash, .string ['/', '/', '\n'] (by decide),
      .whole ['1'] 1 (by decide) (List.forall_mem_singleton.2 rfl)
        (hone ▸ Decimal.toFloat_nearest ..), .sign .dot⟩
  · simp only [List.forall_mem_cons, List.not_mem_nil, false_imp_iff, implies_true, and_true]
    exact ⟨.comment ['#'] ['a'] [] (.inl rfl) (by decide) .nil,
      .blank ' ' _ rfl (.comment ['/', '/'] ['b'] ['\t'] (.inr rfl) (by decide)
        (.blank '\t' [] rfl .nil)),
      .blank ' ' [] rfl .nil, .blank '\n' [] rfl .nil⟩
  · simp [isBlank]
  · exact .comment [' '] ['#'] [' ', 'c'] (.blank ' ' [] rfl .nil) (.inl rfl) (by decide)
  · intro _ c hc
    obtain rfl := Option.some.inj hc
    rfl

end Piece

end Script
