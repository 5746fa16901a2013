import Script.Proofs.Syntax.Words
import Script.Proofs.Token.Faults

/-!
# No token but a string runs over several lines

A line feed is a blank, so it stands in the gaps between tokens, in comments, and in quoted text.
It is in no other lexeme, and no text is at fault for it.

- `Token.words`: what a message may show of a token. Quoted text is not among it.
- `Spells.notMem_newline`: lexemes other than quoted text are on one line.
- `oneLine_of_scan_ok`, `oneLine_of_scan_error`: so are the words of the tokens of a text, and those
  of the faults in it.
-/

namespace Script

/-- The words of a token that are not quoted: its lexeme, and its name if it has one. -/
def Token.words (t : Token) : List String :=
  match t.kind with
  | .string _ => []
  | .ident name => [name, t.lexeme]
  | _ => [t.lexeme]

/-- The lexeme of a token that is no string is one of its words. -/
theorem Token.lexeme_mem_words {t : Token} (h : ∀ value, t.kind ≠ .string value) :
    t.lexeme ∈ t.words := by
  obtain ⟨kind, lexeme, pos⟩ := t
  cases kind with
  | string value => exact absurd rfl (h value)
  | ident name => exact List.mem_cons_of_mem _ List.mem_cons_self
  | _ => exact List.mem_cons_self

theorem Token.name_mem_words {t : Token} {name : String} (h : t.kind = .ident name) :
    name ∈ t.words := by
  unfold words
  rw [h]
  exact List.mem_cons_self

/-! ## Lexemes -/

theorem notMem_newline_of_forall {p : Char → Bool} {cs : List Char} (hp : p '\n' = false)
    (hcs : ∀ d ∈ cs, p d) : '\n' ∉ cs :=
  fun hmem => Bool.false_ne_true (hp.symm.trans (hcs _ hmem))

/-- A lexeme is on one line, or it is quoted text. -/
theorem Spells.notMem_newline {text : List Char} {kind : TokenKind} (h : Spells text kind)
    (hkind : ∀ value, kind ≠ .string value) : '\n' ∉ text := by
  cases h with
  | sign sign => cases sign <;> decide
  | keyword word => cases word <;> decide
  | ident c cs hc hcs _ =>
    exact notMem_newline_of_forall (p := isWordPart) (by decide)
      (List.forall_mem_cons.2 ⟨isWordPart_of_isWordStart hc, hcs⟩)
  | whole digits number hne hdigits => exact notMem_newline_of_forall (by decide) hdigits
  | decimal whole fraction number hne hwhole hne' hfraction =>
    rw [List.mem_append, List.mem_cons]
    rintro (hmem | hmem | hmem)
    · exact notMem_newline_of_forall (by decide) hwhole hmem
    · exact absurd hmem (by decide)
    · exact notMem_newline_of_forall (by decide) hfraction hmem
  | string body hbody => exact absurd rfl (hkind _)

/-- The words of a token are on one line. The name of an identifier is its lexeme. -/
theorem Spells.oneLine_words {text : List Char} {kind : TokenKind} (h : Spells text kind)
    (pos : Position) : ∀ w ∈ Token.words ⟨kind, String.ofList text, pos⟩, OneLine w := by
  have hlexeme (hkind : ∀ value, kind ≠ .string value) : OneLine (String.ofList text) := by
    unfold OneLine
    rw [String.toList_ofList]
    exact h.notMem_newline hkind
  cases kind with
  | string value => exact List.forall_mem_nil _
  | ident name =>
    have hname := hlexeme fun _ hkind => TokenKind.noConfusion hkind
    cases h with
    | ident c cs hc hcs hfree =>
      exact List.forall_mem_cons.2 ⟨hname, List.forall_mem_singleton.2 hname⟩
  | _ => exact List.forall_mem_singleton.2 (hlexeme fun _ hkind => TokenKind.noConfusion hkind)

/-! ## Texts -/

theorem Scans.oneLine_words {before text : List Char} {tokens : List Token}
    (h : Scans before text tokens) : ∀ t ∈ tokens, ∀ w ∈ t.words, OneLine w := by
  induction h with
  | last before gap hgap =>
    have hempty : OneLine "" := by decide
    exact List.forall_mem_singleton.2 (List.forall_mem_singleton.2 hempty)
  | lexeme before gap text rest kind tokens hgap hspells hlongest hopens _ ih =>
    exact List.forall_mem_cons.2 ⟨hspells.oneLine_words _, ih⟩

/-- **The words of the tokens of a text are on one line.** -/
theorem oneLine_of_scan_ok {source : String} {tokens : List Token} (h : scan source = .ok tokens) :
    ∀ t ∈ tokens, ∀ w ∈ t.words, OneLine w :=
  (scan_eq_ok_iff_scans.1 h).oneLine_words

theorem oneLine_of_scanFrom_error {pos : Position} {done : List Token} {cs : List Char}
    {d : Diagnostic} (h : scanFrom pos done cs = .error d) : ∀ w ∈ d.fault.words, OneLine w := by
  fun_induction scanFrom pos done cs with
  | case1 => cases h
  | case2 pos done c cs hc ih => exact ih h
  | case3 pos done c cs _ hc ih => exact ih h
  | case4 pos done c cs hblank _ d' hread =>
    obtain rfl := Except.error.inj h
    rcases readLexeme_error hread with rfl | rfl
    · -- a line feed would have been a blank
      refine List.forall_mem_singleton.2 fun hmem => hblank ?_
      rw [String.toList_singleton, List.mem_singleton] at hmem
      rw [← hmem]
      rfl
    · exact List.forall_mem_nil _
  | case5 pos done c cs _ hc l hread ih => exact ih h

/-- **So are those of the fault in a text that is not read.** -/
theorem oneLine_of_scan_error {source : String} {d : Diagnostic} (h : scan source = .error d) :
    ∀ w ∈ d.fault.words, OneLine w :=
  oneLine_of_scanFrom_error h

end Script
