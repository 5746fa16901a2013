import Script.Proofs.Token.Faults
import Script.Proofs.Token.Layout

/-!
# Which texts are refused

A text is refused at the first place between its tokens where nothing can go on: at a character that
begins no token, or at a quote without a second one. The part in front of such a place could be read
on its own, and does not end inside a comment.

- `readLexeme_eq_error_iff`: where no lexeme can be read.
- `Passes`: a text is read up to some place, with what stands behind it. `Passes.outcome`: from
  there it is read to its end, or up to a place where no lexeme can be read.
- `Readable`, `EndsInComment`: what the part in front of such a place is like. `Passes.goes_on`:
  these say that reading comes to the place.
- `scan_eq_error_iff`: the texts that are refused, for what, and where.
- `scan_refuses_exactly`: the same for each code, with the texts that are accepted.
-/

namespace Script

variable {pos : Position} {c : Char} {cs u v w rest more opener body : List Char}
  {d : Diagnostic}

/-! ## Where no lexeme can be read -/

/-- Whether a sign is read depends on the first character alone. -/
theorem Punct.isSome_read?_cons (c : Char) (cs : List Char) :
    (Punct.read? (c :: cs)).isSome = (Punct.read? [c]).isSome := by
  cases h : Punct.read? (c :: cs) with
  | some found =>
    unfold Punct.read? at h
    split at h <;> first | (obtain ⟨rfl, -⟩ := List.cons.inj ‹_ :: _ = _›; rfl) | cases h
  | none =>
    unfold Punct.read? at h ⊢
    split at h <;> simp_all

/-- A character other than a quote begins a lexeme wherever it stands, or nowhere. -/
theorem readLexeme_of_ne_quote (hquote : c ≠ '"') (pos : Position) (cs : List Char) :
    (∃ l, readLexeme pos c cs = .ok l) ∨
      ∀ pos' cs', readLexeme pos' c cs' = .error ⟨.unexpectedCharacter c, pos'⟩ := by
  by_cases hdigit : c.isDigit
  · exact .inl ⟨_, readLexeme_digit hdigit⟩
  by_cases hword : isWordStart c
  · exact .inl ⟨_, readLexeme_word hword⟩
  cases hsign : Punct.read? [c] with
  | none =>
    refine .inr fun pos' cs' => ?_
    have hnone : Punct.read? (c :: cs') = none := by
      rw [← Option.not_isSome_iff_eq_none, Punct.isSome_read?_cons, hsign]
      simp
    simp [readLexeme, hquote, hdigit, hword, hnone]
  | some found =>
    have hsome : (Punct.read? (c :: cs)).isSome = true := by
      rw [Punct.isSome_read?_cons, hsign]
      rfl
    obtain ⟨⟨sign, rest⟩, hread⟩ := Option.isSome_iff_exists.1 hsome
    exact .inl ⟨⟨.punct sign, sign.spelling.toList, rest⟩,
      by simp [readLexeme, hquote, hdigit, hword, hread]⟩

/-- **Why no lexeme is read**: none begins with the character, or what it quotes does not end. -/
theorem readLexeme_eq_error_iff :
    readLexeme pos c cs = .error d ↔
      (c ≠ '"' ∧ (∀ text kind, ¬ Spells (c :: text) kind) ∧ d = ⟨.unexpectedCharacter c, pos⟩) ∨
        c = '"' ∧ '"' ∉ cs ∧ d = ⟨.unterminatedString, pos.advanceAll (c :: cs)⟩ := by
  by_cases hquote : c = '"'
  · subst hquote
    simp only [ne_eq, not_true_eq_false, false_and, true_and, false_or]
    by_cases hmem : '"' ∈ cs
    · obtain ⟨body, rest, rfl, hbody⟩ := List.eq_append_cons_of_mem hmem
      simp [readLexeme_string hbody]
    · have hrun := forall_ne_of_notMem hmem
      have hstop : ∀ d ∈ ([] : List Char).head?, decide (d ≠ '"') = false := by simp
      have hbody : cs.takeWhile (· ≠ '"') = cs := by
        simpa using takeWhile_eq_of_stop hrun hstop
      have hnone : cs.dropWhile (· ≠ '"') = [] := by
        simpa using dropWhile_eq_of_stop hrun hstop
      have hread : readLexeme pos '"' cs =
          .error ⟨.unterminatedString, pos.advanceAll ('"' :: cs)⟩ := by
        show readString pos cs = _
        simp only [readString, hbody, hnone]
      rw [hread]
      simp [hmem, @eq_comm _ d]
  · simp only [hquote, ne_eq, not_false_eq_true, true_and, false_and, or_false]
    rcases readLexeme_of_ne_quote hquote pos cs with ⟨l, hl⟩ | hfails
    · -- the lexeme read here begins with the character
      obtain ⟨hspells, -, htext⟩ := readLexeme_eq_ok_iff.1 hl
      obtain ⟨e, es, hes⟩ := List.exists_cons_of_ne_nil hspells.ne_nil
      rw [hes] at hspells htext
      obtain ⟨rfl, -⟩ := List.cons.inj htext
      simp only [hl, reduceCtorEq, false_iff, not_and]
      exact fun hnone => absurd hspells (hnone es l.kind)
    · have hnone : ∀ text kind, ¬ Spells (c :: text) kind := fun text kind hspells => by
        have hread := readLexeme_of_spells pos hspells (longest_nil _) (List.append_nil _)
        rw [hfails] at hread
        cases hread
      simp [hfails, hnone, @eq_comm _ d]

theorem readLexeme_unexpected (hquote : c ≠ '"') (h : ∀ text kind, ¬ Spells (c :: text) kind)
    (pos : Position) (cs : List Char) :
    readLexeme pos c cs = .error ⟨.unexpectedCharacter c, pos⟩ :=
  readLexeme_eq_error_iff.2 (.inl ⟨hquote, h, rfl⟩)

theorem readLexeme_unterminated (h : '"' ∉ cs) (pos : Position) :
    readLexeme pos '"' cs = .error ⟨.unterminatedString, pos.advanceAll ('"' :: cs)⟩ :=
  readLexeme_eq_error_iff.2 (.inr ⟨rfl, h, rfl⟩)

/-! ## Characters that begin nothing -/

/-- Neither a gap nor a lexeme begins with the character. -/
structure BeginsNothing (c : Char) : Prop where
  blank : isBlank c = false
  comment : ∀ opener, IsOpener opener → opener.head? ≠ some c
  quote : c ≠ '"'
  token : ∀ text kind, ¬ Spells (c :: text) kind

/-- All characters inside a lexeme can begin one. -/
theorem BeginsNothing.isInner (h : BeginsNothing c) : isInner c = false := by
  rw [Bool.eq_false_iff]
  intro hinner
  simp only [Script.isInner, isWordPart, Char.isAlphanum, Bool.or_eq_true, decide_eq_true_eq]
    at hinner
  rcases hinner with ((((hletter | hdigit) | rfl) | rfl) | rfl)
  · exact h.token [] _ (spells_word (by simp [isWordStart, hletter]) (List.forall_mem_nil _))
  · exact h.token [] _ (.whole [c] _ (List.cons_ne_nil _ _) (List.forall_mem_singleton.2 hdigit)
      (Decimal.toFloat_nearest ..))
  · exact h.token [] _ (spells_word rfl (List.forall_mem_nil _))
  · exact h.token [] _ (.sign .dot)
  · exact h.token [] _ (.sign .equal)

theorem BeginsNothing.ne_slash (h : BeginsNothing c) : c ≠ '/' := by
  rintro rfl
  exact h.token [] _ (.sign .slash)

/-- No comment opens at such a character. -/
theorem BeginsNothing.opensComment (h : BeginsNothing c) (cs : List Char) :
    opensComment c cs = false := by
  rw [Bool.eq_false_iff]
  intro hopens
  rcases opensComment_iff.1 hopens with rfl | hslashes
  · exact h.comment ['#'] (.inl rfl) rfl
  · exact h.ne_slash (List.cons_prefix_cons.1 hslashes).1.symm

/-- Reading fails at the head of a text where no lexeme can be read. -/
theorem scanFrom_refused {done : List Token} (hblank : isBlank c = false)
    (hcomment : opensComment c cs = false) (h : readLexeme pos c cs = .error d) :
    scanFrom pos done (c :: cs) = .error d := by
  rw [scanFrom, if_neg (by simp [hblank]), if_neg (by simp [hcomment])]
  split
  · rename_i hread
    rw [Except.error.inj (hread.symm.trans h)]
  · rename_i hread
    cases h.symm.trans hread

/-! ## Reading up to a place -/

/-- Where `rest` stands behind the text `u`, the text is read up to its end without a fault: blanks,
comments and longest lexemes. -/
inductive Passes : (u rest : List Char) → Prop
  | nil (rest : List Char) : Passes [] rest
  | blank (u : List Char) (c : Char) (rest : List Char) (hu : Passes u (c :: rest))
      (hc : isBlank c) : Passes (u ++ [c]) rest
  | comment (u opener body rest : List Char) (hu : Passes u (opener ++ body ++ rest))
      (hopener : IsOpener opener) (hbody : '\n' ∉ body) (hend : ∀ d ∈ rest.head?, d = '\n') :
      Passes (u ++ (opener ++ body)) rest
  | lexeme (u text rest : List Char) (kind : TokenKind) (hu : Passes u (text ++ rest))
      (hspells : Spells text kind) (hlongest : Longest text rest)
      (hopens : ¬ ['/', '/'] <+: text ++ rest) : Passes (u ++ text) rest

/-- It does not matter what stands further behind. -/
theorem Passes.cut (h : Passes u (rest ++ more)) : Passes u rest := by
  generalize hbehind : rest ++ more = behind at h
  induction h generalizing rest with
  | nil => exact .nil rest
  | blank u c behind _ hc ih =>
    exact .blank u c rest (ih (by rw [List.cons_append, hbehind])) hc
  | comment u opener body behind _ hopener hbody hend ih =>
    refine .comment u opener body rest (ih (by rw [List.append_assoc, hbehind])) hopener hbody ?_
    subst hbehind
    cases rest with
    | nil => simp
    | cons e rest => simpa using hend
  | lexeme u text behind kind _ hspells hlongest hopens ih =>
    subst hbehind
    refine .lexeme u text rest kind (ih (List.append_assoc ..)) hspells ?_ ?_
    · intro other kind' hother hhead
      refine hlongest other kind' hother (hhead.trans ?_)
      rw [← List.append_assoc]
      exact List.prefix_append ..
    · intro hslashes
      refine hopens (hslashes.trans ?_)
      rw [← List.append_assoc]
      exact List.prefix_append ..

/-- Nor does what comes to stand further behind, where no lexeme is continued. -/
theorem Passes.append (h : Passes u rest) (hne : rest ≠ []) (hmore : Stops more) :
    Passes u (rest ++ more) := by
  induction h with
  | nil => exact .nil _
  | blank u c rest _ hc ih => exact .blank u c _ (ih (List.cons_ne_nil _ _)) hc
  | comment u opener body rest _ hopener hbody hend ih =>
    refine .comment u opener body _ ?_ hopener hbody ?_
    · rw [← List.append_assoc]
      exact ih (List.append_ne_nil_of_right_ne_nil _ hne)
    · rwa [List.head?_append_of_ne_nil _ hne]
  | lexeme u text rest kind _ hspells hlongest hopens ih =>
    have hboth : text ++ rest ≠ [] := List.append_ne_nil_of_right_ne_nil _ hne
    refine .lexeme u text _ kind ?_ hspells (hlongest.append hspells hmore) ?_
    · rw [← List.append_assoc]
      exact ih hboth
    · rw [← List.append_assoc]
      refine not_opens_append hboth hopens fun hslash => ?_
      -- a lexeme and what follows it are two characters at least
      have hlength := congrArg List.length hslash
      have htext := List.length_pos_iff.2 hspells.ne_nil
      have hrest := List.length_pos_iff.2 hne
      simp only [List.length_append, List.length_singleton] at hlength
      omega

/-- Reading comes to the place. -/
theorem Passes.scanFrom_eq (h : Passes u rest) :
    ∃ done, scanFrom .start [] (u ++ rest) = scanFrom (.behind u) done rest := by
  induction h with
  | nil rest => exact ⟨[], rfl⟩
  | blank u c rest _ hc ih =>
    obtain ⟨done, hdone⟩ := ih
    refine ⟨done, ?_⟩
    rw [List.append_assoc, List.singleton_append, hdone, scanFrom_blank hc, Position.behind_concat]
  | comment u opener body rest _ hopener hbody hend ih =>
    obtain ⟨done, hdone⟩ := ih
    have hgap : Gap (opener ++ body) rest := by
      simpa using Gap.comment opener body [] rest hopener hbody (by simpa using hend) (.nil rest)
    refine ⟨done, ?_⟩
    rw [List.append_assoc, hdone, scanFrom_gap hgap, Position.behind_append]
  | lexeme u text rest kind _ hspells hlongest hopens ih =>
    obtain ⟨done, hdone⟩ := ih
    obtain ⟨c, cs, rfl⟩ := List.exists_cons_of_ne_nil hspells.ne_nil
    obtain ⟨hblank, hhash⟩ := hspells.head
    have hcomment : opensComment c (cs ++ rest) = false :=
      Bool.eq_false_iff.2 fun hc => (opensComment_iff.1 hc).elim hhash hopens
    have hread := readLexeme_of_spells (.behind u) hspells hlongest (List.cons_append ..)
    refine ⟨⟨kind, String.ofList (c :: cs), .behind u⟩ :: done, ?_⟩
    rw [List.append_assoc, hdone, List.cons_append, scanFrom_lexeme hblank hcomment hread,
      Position.behind_append]

/-- **From a place that reading comes to**, the text is read to its end, or up to a place where no
lexeme can be read. -/
theorem Passes.outcome {done : List Token} (h : Passes u cs) (hpos : pos = .behind u) :
    (∃ tokens, scanFrom pos done cs = .ok tokens ∧ Passes (u ++ cs) []) ∨
      ∃ d w c v, scanFrom pos done cs = .error d ∧ u ++ cs = w ++ c :: v ∧ Passes w (c :: v) ∧
        isBlank c = false ∧ opensComment c v = false ∧ readLexeme (.behind w) c v = .error d := by
  fun_induction scanFrom pos done cs generalizing u with
  | case1 pos done => exact .inl ⟨_, rfl, by rwa [List.append_nil]⟩
  | case2 pos done c cs hc ih =>
    have hnext : pos.advance c = .behind (u ++ [c]) := by rw [hpos, Position.behind_concat]
    simpa using ih (.blank u c cs h hc) hnext
  | case3 pos done c cs _ hc ih =>
    obtain ⟨opener, body, htext, hopener, hbody⟩ := exists_comment_of_opens hc
    have hjoined : opener ++ body ++ cs.dropWhile (· ≠ '\n') = c :: cs := by
      rw [← htext, List.cons_append, List.takeWhile_append_dropWhile]
    have hpasses : Passes (u ++ (opener ++ body)) (cs.dropWhile (· ≠ '\n')) :=
      .comment u opener body _ (hjoined ▸ h) hopener hbody (head_dropWhile_newline cs)
    have hnext : pos.advanceAll (c :: cs.takeWhile (· ≠ '\n')) =
        .behind (u ++ (opener ++ body)) := by
      rw [hpos, htext, Position.behind_append]
    have hrest := ih hpasses hnext
    rwa [List.append_assoc, hjoined] at hrest
  | case4 pos done c cs hblank hcomment d hread =>
    refine .inr ⟨d, u, c, cs, rfl, rfl, h, ?_, ?_, hpos ▸ hread⟩
    · simpa using hblank
    · simpa using hcomment
  | case5 pos done c cs _ hcomment l hread ih =>
    obtain ⟨hspells, hlongest, htext⟩ := readLexeme_eq_ok_iff.1 hread
    have hopens : ¬ ['/', '/'] <+: l.text ++ l.rest := by
      rw [htext]
      exact fun hslashes => hcomment (opensComment_iff.2 (.inr hslashes))
    have hnext : pos.advanceAll l.text = .behind (u ++ l.text) := by
      rw [hpos, Position.behind_append]
    have hpasses : Passes (u ++ l.text) l.rest :=
      .lexeme u l.text l.rest l.kind (htext ▸ h) hspells hlongest hopens
    have hrest := ih hpasses hnext
    rwa [List.append_assoc, htext] at hrest

/-! ## In front of such a place -/

/-- The text can be read on its own. -/
def Readable (u : List Char) : Prop := ∃ tokens, scan (String.ofList u) = .ok tokens

/-- The text ends inside a comment: behind a part that can be read on its own, a comment begins, and
no line feed follows. -/
def EndsInComment (u : List Char) : Prop :=
  ∃ w opener body, u = w ++ (opener ++ body) ∧ Readable w ∧ IsOpener opener ∧ '\n' ∉ body

theorem readable_iff_passes : Readable u ↔ Passes u [] := by
  unfold Readable scan
  rw [String.toList_ofList]
  constructor
  · rintro ⟨tokens, htokens⟩
    rcases (Passes.nil u).outcome Position.behind_nil.symm with ⟨-, -, h⟩ | ⟨d, -, -, -, hd, -⟩
    · exact h
    · rw [hd] at htokens
      cases htokens
  · intro h
    obtain ⟨done, hdone⟩ := h.scanFrom_eq
    rw [List.append_nil] at hdone
    exact ⟨_, by rw [hdone, scanFrom]⟩

/-- What is in front of a place that reading comes to can be read on its own. -/
theorem Passes.readable (h : Passes u rest) : Readable u :=
  readable_iff_passes.2 (show Passes u ([] ++ rest) from h).cut

/-- **Reading comes to the end of a text that can be read on its own**, if it does not end inside a
comment, and what follows neither continues a lexeme nor makes a comment of a slash. -/
theorem Readable.passes (h : Readable u) (hcomment : ¬ EndsInComment u) (hrest : Stops rest)
    (hslash : rest.head? = some '/' → ∀ w, u = w ++ ['/'] → ¬ Readable w) : Passes u rest := by
  cases readable_iff_passes.1 h with
  | nil => exact .nil rest
  | blank u c _ hu hc => exact .blank u c rest (hu.append (List.cons_ne_nil _ _) hrest) hc
  | comment u opener body _ hu hopener hbody =>
    exact absurd ⟨u, opener, body, rfl, hu.readable, hopener, hbody⟩ hcomment
  | lexeme u text _ kind hu hspells hlongest hopens =>
    rw [List.append_nil] at hu hopens
    refine .lexeme u text rest kind (hu.append hspells.ne_nil hrest) hspells
      (hlongest.append hspells hrest) (not_opens_append hspells.ne_nil hopens fun htext hhead => ?_)
    exact hslash hhead u (by rw [htext]) hu.readable

theorem IsOpener.ne_nil (h : IsOpener opener) : opener ≠ [] := by
  rcases h with rfl | rfl <;> exact List.cons_ne_nil _ _

theorem IsOpener.stops (h : IsOpener opener) (body : List Char) : Stops (opener ++ body) := by
  rcases h with rfl | rfl <;>
    · intro c hc
      obtain rfl := Option.some.inj hc
      decide

theorem IsOpener.notMem_newline (h : IsOpener opener) : '\n' ∉ opener := by
  rcases h with rfl | rfl <;> decide

/-- With a comment behind it, a text can still be read, wherever the comment then begins. -/
theorem Readable.comment (h : Readable w) (hopener : IsOpener opener) (hbody : '\n' ∉ body) :
    Readable (w ++ (opener ++ body)) := by
  -- a comment at the end of `w`, or a slash there, makes the comment begin earlier
  induction hn : w.length using Nat.strong_induction_on generalizing w opener body with
  | _ n ih =>
    subst hn
    by_cases hcomment : EndsInComment w
    · obtain ⟨w, opener', body', rfl, hw, hopener', hbody'⟩ := hcomment
      have hlength := List.length_pos_iff.2 hopener'.ne_nil
      have hline : '\n' ∉ body' ++ (opener ++ body) := by
        simp only [List.mem_append, hbody', hopener.notMem_newline, hbody, or_self,
          not_false_eq_true]
      have hearlier := ih w.length (by simp; omega) hw hopener' hline rfl
      simpa using hearlier
    · by_cases hslash : (opener ++ body).head? = some '/' ∧ ∃ w', w = w' ++ ['/'] ∧ Readable w'
      · obtain ⟨hhead, w, rfl, hw⟩ := hslash
        obtain rfl : opener = ['/', '/'] := hopener.resolve_left (by rintro rfl; cases hhead)
        have hline : '\n' ∉ '/' :: body := by simpa using hbody
        have hearlier := ih w.length (by simp) hw (.inr rfl) hline rfl
        simpa using hearlier
      · have hpasses := h.passes hcomment (hopener.stops body) fun hhead w' hw' hreadable =>
          hslash ⟨hhead, w', hw', hreadable⟩
        exact (Passes.comment w opener body [] (by simpa using hpasses) hopener hbody
          (by simp)).readable

/-- The part in front of a place where no lexeme can be read does not end inside a comment. -/
theorem Passes.not_endsInComment (h : Passes u (c :: v)) (hblank : isBlank c = false)
    (hcomment : opensComment c [] = false) (hread : readLexeme (.behind u) c [] = .error d) :
    ¬ EndsInComment u := by
  rintro ⟨w, opener, body, rfl, hw, hopener, hbody⟩
  have hnewline : c ≠ '\n' := by
    rintro rfl
    cases hblank
  -- a comment would reach over the character, and the whole could be read
  have hline : '\n' ∉ body ++ [c] := by simpa [hbody] using hnewline.symm
  have hwhole : Passes (w ++ (opener ++ body) ++ [c]) [] := by
    simpa using readable_iff_passes.1 (hw.comment hopener hline)
  have hcut : Passes (w ++ (opener ++ body)) [c] :=
    (show Passes (w ++ (opener ++ body)) ([c] ++ v) from h).cut
  obtain ⟨done, hdone⟩ := hwhole.scanFrom_eq
  obtain ⟨done', hdone'⟩ := hcut.scanFrom_eq
  rw [List.append_nil, hdone', scanFrom_refused hblank hcomment hread, scanFrom] at hdone
  cases hdone

/-! ## The texts that are refused -/

/-- The text `source` has the character `c` behind `u`, where nothing begins with it. -/
structure StrangeAt (source : String) (u : List Char) (c : Char) : Prop where
  split : ∃ v, source.toList = u ++ c :: v
  readable : Readable u
  outside : ¬ EndsInComment u
  nothing : BeginsNothing c

/-- The text `source` has its last quote behind `u`, where a quoted text begins. -/
structure OpenQuoteAt (source : String) (u : List Char) : Prop where
  split : ∃ v, source.toList = u ++ '"' :: v ∧ '"' ∉ v
  readable : Readable u
  outside : ¬ EndsInComment u

variable {source : String}

theorem StrangeAt.scan_eq (h : StrangeAt source u c) :
    scan source = .error ⟨.unexpectedCharacter c, .behind u⟩ := by
  obtain ⟨v, hv⟩ := h.split
  have hstops : Stops (c :: v) := by
    intro e he
    obtain rfl := Option.some.inj he
    exact h.nothing.isInner
  have hpasses := h.readable.passes h.outside hstops fun hhead =>
    absurd (Option.some.inj hhead) h.nothing.ne_slash
  have hread := readLexeme_unexpected h.nothing.quote h.nothing.token (.behind u) v
  obtain ⟨done, hdone⟩ := hpasses.scanFrom_eq
  rw [scan, hv, hdone, scanFrom_refused h.nothing.blank (h.nothing.opensComment v) hread]

theorem OpenQuoteAt.scan_eq (h : OpenQuoteAt source u) :
    scan source = .error ⟨.unterminatedString, .behind source.toList⟩ := by
  obtain ⟨v, hv, hquote⟩ := h.split
  have hstops : Stops ('"' :: v) := by
    intro e he
    obtain rfl := Option.some.inj he
    decide
  have hpasses := h.readable.passes h.outside hstops fun hhead => by cases hhead
  have hread := readLexeme_unterminated hquote (.behind u)
  obtain ⟨done, hdone⟩ := hpasses.scanFrom_eq
  rw [scan, hv, hdone, scanFrom_refused rfl rfl hread, Position.behind_append]

/-- **What a text is refused for, and where.** -/
theorem scan_eq_error_iff :
    scan source = .error d ↔
      (∃ u c, StrangeAt source u c ∧ d = ⟨.unexpectedCharacter c, .behind u⟩) ∨
        (∃ u, OpenQuoteAt source u) ∧ d = ⟨.unterminatedString, .behind source.toList⟩ := by
  constructor
  · intro h
    rcases (Passes.nil source.toList).outcome Position.behind_nil.symm with
      ⟨tokens, htokens, -⟩ | ⟨d', w, c, v, hd', hsplit, hpasses, hblank, hcomment, hread⟩
    · cases h.symm.trans htokens
    · obtain rfl := Except.error.inj (h.symm.trans hd')
      rw [List.nil_append] at hsplit
      rcases readLexeme_eq_error_iff.1 hread with ⟨hquote, hnone, rfl⟩ | ⟨rfl, hquote, rfl⟩
      · have hnothing : BeginsNothing c := by
          refine ⟨hblank, ?_, hquote, hnone⟩
          rintro opener (rfl | rfl) hc
          · obtain rfl := Option.some.inj hc
            cases hcomment
          · obtain rfl := Option.some.inj hc
            exact hnone [] _ (.sign .slash)
        have hread' := readLexeme_unexpected hquote hnone (.behind w) []
        exact .inl ⟨w, c, ⟨⟨v, hsplit⟩, hpasses.readable,
          hpasses.not_endsInComment hblank (hnothing.opensComment []) hread', hnothing⟩, rfl⟩
      · have hread' := readLexeme_unterminated List.not_mem_nil (.behind w)
        refine .inr ⟨⟨w, ⟨v, hsplit, hquote⟩, hpasses.readable,
          hpasses.not_endsInComment rfl rfl hread'⟩, ?_⟩
        rw [hsplit, Position.behind_append]
  · rintro (⟨u, c, h, rfl⟩ | ⟨⟨u, h⟩, rfl⟩)
    · exact h.scan_eq
    · exact h.scan_eq

/-! ## Slices -/

/-- The stretch of `source` with `before` in front of it begins and ends between characters. -/
structure SliceOf (source : String) (before text : List Char) : Prop where
  split : ∃ after, source.toList = before ++ text ++ after
  start : String.Pos.Raw.IsValid source ⟨(utf8Bytes before).length⟩
  stop : String.Pos.Raw.IsValid source ⟨(utf8Bytes (before ++ text)).length⟩

theorem sliceOf_of_split {after : List Char} (h : source.toList = u ++ v ++ after) :
    SliceOf source u v where
  split := ⟨after, h⟩
  start := isValid_utf8Bytes (v ++ after) (by simpa using h)
  stop := isValid_utf8Bytes after h

/-- The lexemes of the tokens are slices. -/
theorem Scans.sliceOf {before text : List Char} {tokens : List Token}
    (h : Scans before text tokens) (hsource : source.toList = before ++ text) :
    ∀ t ∈ tokens, ∃ u, t.pos = .behind u ∧ SliceOf source u t.lexeme.toList := by
  induction h with
  | last before gap hgap =>
    have hend : source.toList = before ++ gap ++ [] ++ [] := by simpa using hsource
    exact List.forall_mem_singleton.2 ⟨before ++ gap, rfl, sliceOf_of_split hend⟩
  | lexeme before gap text rest kind tokens hgap hspells hlongest hopens _ ih =>
    have hsource' : source.toList = before ++ gap ++ text ++ rest := by simpa using hsource
    refine List.forall_mem_cons.2 ⟨⟨before ++ gap, rfl, ?_⟩, ih hsource'⟩
    rw [String.toList_ofList]
    exact sliceOf_of_split hsource'

/-- **Which texts are refused, and where.** A text is refused for an unexpected character exactly if
it has one behind a part that can be read on its own and does not end inside a comment, and then
where this part ends; the message shows the character. It is refused for a quoted text without an
end exactly if its last quote stands behind such a part, and then at its end. It is accepted in
every other case. The lexemes of its tokens, and the part in front of a fault, begin and end
between characters. -/
theorem scan_refuses_exactly (source : String) :
    ((∃ d, scan source = .error d ∧ d.fault.code = "L001") ↔ ∃ u c, StrangeAt source u c) ∧
    (∀ u c, StrangeAt source u c → ∃ d, scan source = .error d ∧ d.pos = .behind u ∧
      d.message = "Unexpected character '" ++ String.singleton c ++ "'.") ∧
    ((∃ d, scan source = .error d ∧ d.fault.code = "L002") ↔ ∃ u, OpenQuoteAt source u) ∧
    (∀ u, OpenQuoteAt source u → ∃ d, scan source = .error d ∧ d.pos = .behind source.toList) ∧
    ((∃ tokens, scan source = .ok tokens) ↔
      (¬ ∃ u c, StrangeAt source u c) ∧ ¬ ∃ u, OpenQuoteAt source u) ∧
    (∀ tokens, scan source = .ok tokens → ∀ t ∈ tokens, ∃ u, t.pos = .behind u ∧
      SliceOf source u t.lexeme.toList) ∧
    ∀ d, scan source = .error d → ∃ u, d.pos = .behind u ∧ SliceOf source [] u := by
  refine ⟨⟨?_, ?_⟩, ?_, ⟨?_, ?_⟩, ?_, ⟨?_, ?_⟩, ?_, ?_⟩
  · rintro ⟨d, hd, hcode⟩
    rcases scan_eq_error_iff.1 hd with ⟨u, c, h, -⟩ | ⟨-, rfl⟩
    · exact ⟨u, c, h⟩
    · exact absurd hcode (by simp [Fault.code])
  · rintro ⟨u, c, h⟩
    exact ⟨_, h.scan_eq, rfl⟩
  · intro u c h
    exact ⟨_, h.scan_eq, rfl, rfl⟩
  · rintro ⟨d, hd, hcode⟩
    rcases scan_eq_error_iff.1 hd with ⟨u, c, -, rfl⟩ | ⟨h, -⟩
    · exact absurd hcode (by simp [Fault.code])
    · exact h
  · rintro ⟨u, h⟩
    exact ⟨_, h.scan_eq, rfl⟩
  · intro u h
    exact ⟨_, h.scan_eq, rfl⟩
  · rintro ⟨tokens, htokens⟩
    refine ⟨?_, ?_⟩
    · rintro ⟨u, c, h⟩
      cases htokens.symm.trans h.scan_eq
    · rintro ⟨u, h⟩
      cases htokens.symm.trans h.scan_eq
  · rintro ⟨hstrange, hquote⟩
    cases hscan : scan source with
    | ok tokens => exact ⟨tokens, rfl⟩
    | error d =>
      rcases scan_eq_error_iff.1 hscan with ⟨u, c, h, -⟩ | ⟨h, -⟩
      · exact absurd ⟨u, c, h⟩ hstrange
      · exact absurd h hquote
  · exact fun tokens htokens => (scan_eq_ok_iff_scans.1 htokens).sliceOf rfl
  · intro d hd
    rcases scan_eq_error_iff.1 hd with ⟨u, c, h, rfl⟩ | ⟨-, rfl⟩
    · obtain ⟨v, hv⟩ := h.split
      exact ⟨u, rfl, sliceOf_of_split hv⟩
    · exact ⟨source.toList, rfl, sliceOf_of_split (List.append_nil _).symm⟩

/-- A quote in a comment opens nothing, and a comment in quotes is none. -/
example : scan "# \"\n\"a\n#\" é" = .error ⟨.unexpectedCharacter 'é', ⟨3, 4⟩⟩ := by decide +kernel

end Script
