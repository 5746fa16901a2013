import Script.Token.Scan
import Script.Proofs.Decimal.Numerals
import Mathlib.Data.List.TakeWhile

/-!
# What a lexeme is

Which texts are lexemes, and of which token, is said here without a reader: a lexeme is a sign, a
reserved word, another word, a run of digits, two runs with a point between them, or a quoted text.
A numeral stands for the double that is nearest to its number. The reader of one lexeme is then
characterized by it.

- `Spells`: the text spells a token of this kind.
- `Longest`: no lexeme that begins at the same place is longer.
- `readLexeme_eq_ok_iff`: the lexeme read is the longest at its place.
- `Spells.unique`: a lexeme determines the kind of its token and what the token stands for.
-/

namespace Script

/-! ## Lexemes without a reader -/

/-- The text `text` is a lexeme, and a token of kind `kind` is what it spells. -/
inductive Spells : (text : List Char) → (kind : TokenKind) → Prop
  | sign (sign : Punct) : Spells sign.spelling.toList (.punct sign)
  | keyword (word : Keyword) : Spells word.spelling.toList (.keyword word)
  | ident (c : Char) (cs : List Char) (hc : isWordStart c) (hcs : ∀ d ∈ cs, isWordPart d)
      (hfree : ∀ word : Keyword, word.spelling.toList ≠ c :: cs) :
      Spells (c :: cs) (.ident (String.ofList (c :: cs)))
  | whole (digits : List Char) (number : Float) (hne : digits ≠ [])
      (hdigits : ∀ d ∈ digits, d.isDigit)
      (hnumber : Decimal.Nearest (Decimal.numeral digits []) number) :
      Spells digits (.number number)
  | decimal (whole fraction : List Char) (number : Float) (hne : whole ≠ [])
      (hwhole : ∀ d ∈ whole, d.isDigit) (hne' : fraction ≠ [])
      (hfraction : ∀ d ∈ fraction, d.isDigit)
      (hnumber : Decimal.Nearest (Decimal.numeral whole fraction) number) :
      Spells (whole ++ '.' :: fraction) (.number number)
  | string (body : List Char) (hbody : '"' ∉ body) :
      Spells ('"' :: body ++ ['"']) (.string (String.ofList body))

/-- A lexeme has at least one character. -/
theorem Spells.ne_nil {text : List Char} {kind : TokenKind} (h : Spells text kind) : text ≠ [] := by
  cases h with
  | sign sign => exact sign.spelling_ne_nil
  | keyword word => cases word <;> decide
  | whole digits number hne => exact hne
  | _ => simp

/-- No lexeme at the head of `text ++ rest` is longer than `text`. -/
def Longest (text rest : List Char) : Prop :=
  ∀ other kind, Spells other kind → other <+: text ++ rest → other.length ≤ text.length

theorem longest_nil (text : List Char) : Longest text [] := by
  intro other kind _ hother
  simpa using hother.length_le

/-- A longest lexeme cannot be continued to a longer one. -/
theorem Longest.not_spells {text more rest : List Char} (h : Longest text (more ++ rest))
    (hmore : more ≠ []) (kind : TokenKind) : ¬ Spells (text ++ more) kind := by
  intro hspells
  have hle := h _ kind hspells ⟨rest, by simp⟩
  have := List.length_pos_iff.2 hmore
  rw [List.length_append] at hle
  omega

/-! ## Runs of characters -/

section Runs

variable {p : Char → Bool} {run rest : List Char}

/-- A run of characters at the head of a text is part of the longest such run. -/
theorem prefix_takeWhile_of_all {cs : List Char} (hrun : ∀ d ∈ run, p d) (h : run <+: cs) :
    run <+: cs.takeWhile p := by
  obtain ⟨rest, rfl⟩ := h
  rw [List.takeWhile_append_of_pos hrun]
  exact List.prefix_append _ _

theorem takeWhile_eq_of_stop (hrun : ∀ d ∈ run, p d) (hstop : ∀ d ∈ rest.head?, p d = false) :
    (run ++ rest).takeWhile p = run := by
  rw [List.takeWhile_append_of_pos hrun]
  cases rest with
  | nil => simp
  | cons d rest => simp [hstop d rfl]

theorem dropWhile_eq_of_stop (hrun : ∀ d ∈ run, p d) (hstop : ∀ d ∈ rest.head?, p d = false) :
    (run ++ rest).dropWhile p = rest := by
  rw [List.dropWhile_append_of_pos hrun]
  cases rest with
  | nil => simp
  | cons d rest => simp [hstop d rfl]

/-- A run ends at a character that does not belong to it. -/
theorem eq_false_of_dropWhile_eq {cs : List Char} {d : Char} (h : cs.dropWhile p = d :: rest) :
    p d = false := by
  have hne : cs.dropWhile p ≠ [] := by simp [h]
  simpa [h] using List.head_dropWhile_not p hne

theorem forall_ne_of_notMem {stop : Char} (h : stop ∉ run) :
    ∀ d ∈ run, decide (d ≠ stop) = true := by
  intro d hd
  simpa using fun heq : d = stop => h (heq ▸ hd)

/-- A run up to a character does not hold it. -/
theorem notMem_takeWhile_ne (stop : Char) (cs : List Char) : stop ∉ cs.takeWhile (· ≠ stop) :=
  fun hmem => by simpa using List.mem_takeWhile_imp hmem

end Runs

/-! ## Words -/

theorem Keyword.ofSpelling?_eq_some {word : String} {k : Keyword}
    (h : Keyword.ofSpelling? word = some k) : k.spelling = word := by
  simpa using List.find?_some h

theorem Keyword.ofSpelling?_eq_none {word : String} (h : Keyword.ofSpelling? word = none)
    (k : Keyword) : k.spelling ≠ word := by
  simpa using List.find?_eq_none.1 h k k.mem_all

theorem TokenKind.ofWord_eq_ident {cs : List Char}
    (h : ∀ word : Keyword, word.spelling.toList ≠ cs) :
    TokenKind.ofWord (String.ofList cs) = .ident (String.ofList cs) := by
  unfold TokenKind.ofWord
  split
  · rename_i word hword
    refine absurd ?_ (h word)
    rw [Keyword.ofSpelling?_eq_some hword, String.toList_ofList]
  · rfl

/-- A reserved word is a word. -/
theorem Keyword.spelling_eq_word (k : Keyword) :
    ∃ c cs, k.spelling.toList = c :: cs ∧ isWordStart c ∧ ∀ d ∈ cs, isWordPart d := by
  cases k <;> exact ⟨_, _, rfl, by decide, List.all_eq_true.1 (by decide)⟩

/-- Every word spells the token that the table of reserved words makes of it. -/
theorem spells_word {c : Char} {cs : List Char} (hc : isWordStart c)
    (hcs : ∀ d ∈ cs, isWordPart d) :
    Spells (c :: cs) (.ofWord (String.ofList (c :: cs))) := by
  unfold TokenKind.ofWord
  split
  · rename_i k hk
    have hspelling : k.spelling.toList = c :: cs := by
      rw [Keyword.ofSpelling?_eq_some hk, String.toList_ofList]
    exact hspelling ▸ .keyword k
  · rename_i hk
    refine .ident c cs hc hcs fun word hword => ?_
    exact Keyword.ofSpelling?_eq_none hk word (by rw [← hword, String.ofList_toList])

/-! ## Signs -/

/-- With two characters where there are two: the sign read is the longest one. -/
theorem Punct.length_le_of_read? {cs rest : List Char} {sign other : Punct}
    (h : Punct.read? cs = some (sign, rest)) (hother : other.spelling.toList <+: cs) :
    other.spelling.toList.length ≤ sign.spelling.toList.length := by
  have hpos : 1 ≤ sign.spelling.toList.length := List.length_pos_iff.2 sign.spelling_ne_nil
  cases other <;>
    first
    | exact hpos
    | (obtain ⟨tail, rfl⟩ := hother; cases h; exact Nat.le_refl _)

/-- A sign is read where it stands unless an equals sign makes a longer one of it. -/
theorem Punct.read?_of_longest {sign : Punct} {rest : List Char}
    (h : Longest sign.spelling.toList rest) :
    Punct.read? (sign.spelling.toList ++ rest) = some (sign, rest) := by
  have hstop : ∀ longer : Punct, longer.spelling.toList = sign.spelling.toList ++ ['='] →
      ∀ tail, rest ≠ '=' :: tail := by
    rintro longer hlonger tail rfl
    have hspells : Spells (sign.spelling.toList ++ ['=']) (.punct longer) :=
      hlonger ▸ Spells.sign longer
    have hmore : Longest sign.spelling.toList (['='] ++ tail) := h
    exact hmore.not_spells (List.cons_ne_nil _ _) _ hspells
  cases sign with
  | bang => simp [Punct.spelling, Punct.read?, hstop .bangEqual rfl]
  | equal => simp [Punct.spelling, Punct.read?, hstop .equalEqual rfl]
  | less => simp [Punct.spelling, Punct.read?, hstop .lessEqual rfl]
  | greater => simp [Punct.spelling, Punct.read?, hstop .greaterEqual rfl]
  | _ => rfl

/-! ## Numbers -/

theorem isDigit_of_mem_fractionDigits {cs : List Char} :
    ∀ d ∈ fractionDigits cs, d.isDigit := by
  intro d hd
  unfold fractionDigits at hd
  split at hd
  · exact List.mem_takeWhile_imp hd
  · cases hd

/-! ## The reader, by the first character -/

section Readers

variable {pos : Position} {c : Char} {cs : List Char}

/-- The letters and the underscore come behind the digits. -/
theorem isDigit_eq_false_of_isWordStart (hc : isWordStart c) : c.isDigit = false := by
  rw [Bool.eq_false_iff]
  intro hdigit
  have hnine : c.val.toNat ≤ 57 := (Char.isDigit_iff_toNat.1 hdigit).2
  have hstart : ((decide ('A'.val ≤ c.val ∧ c.val ≤ 'Z'.val) ||
      (decide ('a'.val ≤ c.val) && decide (c.val ≤ 'z'.val))) || decide (c = '_')) = true := hc
  simp only [Bool.or_eq_true, Bool.and_eq_true, decide_eq_true_eq,
    UInt32.le_iff_toNat_le] at hstart
  have hupper : 'A'.val.toNat = 65 := rfl
  have hlower : 'a'.val.toNat = 97 := rfl
  rcases hstart with (⟨hletter, -⟩ | ⟨hletter, -⟩) | rfl
  · omega
  · omega
  · exact absurd hnine (by decide)

theorem readLexeme_digit (hc : c.isDigit) :
    readLexeme pos c cs = .ok (readNumber (c :: cs)) := by
  have hquote : c ≠ '"' := by
    rintro rfl
    exact absurd hc (by decide)
  simp [readLexeme, hquote, hc]

theorem readLexeme_word (hc : isWordStart c) :
    readLexeme pos c cs = .ok (readWord (c :: cs)) := by
  have hquote : c ≠ '"' := by
    rintro rfl
    exact absurd hc (by decide)
  simp [readLexeme, hquote, isDigit_eq_false_of_isWordStart hc, hc]

/-- No other lexeme begins with the first character of a sign. -/
theorem readLexeme_sign_iff {sign : Punct} {l : Lexeme} (h : sign.spelling.toList <+: c :: cs) :
    readLexeme pos c cs = .ok l ↔ ∃ found rest, Punct.read? (c :: cs) = some (found, rest) ∧
      ⟨.punct found, found.spelling.toList, rest⟩ = l := by
  have hhead : c ≠ '"' ∧ c.isDigit = false ∧ isWordStart c = false := by
    obtain ⟨rest, htext⟩ := h
    cases sign <;> (obtain ⟨rfl, -⟩ := List.cons.inj htext; decide)
  simp only [readLexeme, hhead, Bool.false_eq_true, ↓reduceIte]
  rcases Punct.read? (c :: cs) with _ | ⟨found, rest⟩
  · simp
  · simp [and_assoc]

/-- A quoted text is read up to its closing quote. -/
theorem readLexeme_string {body rest : List Char} (hbody : '"' ∉ body) :
    readLexeme pos '"' (body ++ '"' :: rest) =
      .ok ⟨.string (String.ofList body), '"' :: body ++ ['"'], rest⟩ := by
  have hrun := forall_ne_of_notMem hbody
  have hstop : ∀ d ∈ ('"' :: rest).head?, decide (d ≠ '"') = false := by simp
  show readString pos (body ++ '"' :: rest) = _
  simp only [readString, takeWhile_eq_of_stop hrun hstop, dropWhile_eq_of_stop hrun hstop]

/-! ## What is read is a lexeme -/

theorem readNumber_spells (hc : c.isDigit) :
    Spells (readNumber (c :: cs)).text (readNumber (c :: cs)).kind := by
  have hwhole : (c :: cs).takeWhile Char.isDigit ≠ [] := by simp [hc]
  unfold readNumber
  by_cases h : (fractionDigits ((c :: cs).dropWhile Char.isDigit)).isEmpty
  · simp only [h, ↓reduceIte]
    exact .whole _ _ hwhole (fun d hd => List.mem_takeWhile_imp hd) (Decimal.toFloat_nearest ..)
  · simp only [h, Bool.false_eq_true, ↓reduceIte]
    exact .decimal _ _ _ hwhole (fun d hd => List.mem_takeWhile_imp hd) (by simpa using h)
      isDigit_of_mem_fractionDigits (Decimal.toFloat_nearest ..)

theorem readString_spells {l : Lexeme} (h : readString pos cs = .ok l) : Spells l.text l.kind := by
  unfold readString at h
  split at h
  · cases h
  · rename_i quote rest hrest
    cases h
    have hquote : quote = '"' := by simpa using eq_false_of_dropWhile_eq hrest
    subst hquote
    exact .string _ (notMem_takeWhile_ne '"' cs)

theorem readLexeme_spells {l : Lexeme} (h : readLexeme pos c cs = .ok l) :
    Spells l.text l.kind := by
  unfold readLexeme at h
  split at h
  · exact readString_spells h
  · split at h
    · rename_i hc
      cases h
      exact readNumber_spells hc
    · split at h
      · rename_i hc
        cases h
        simp only [readWord, List.takeWhile_cons, isWordPart_of_isWordStart hc, ↓reduceIte]
        exact spells_word hc fun d hd => List.mem_takeWhile_imp hd
      · split at h
        · cases h
          exact .sign _
        · cases h

/-! ## What is read is longest -/

theorem length_le_readNumber_of_whole {digits : List Char} (hdigits : ∀ d ∈ digits, d.isDigit)
    (h : digits <+: cs) : digits.length ≤ (readNumber cs).text.length := by
  have hle := (prefix_takeWhile_of_all hdigits h).length_le
  unfold readNumber
  dsimp only
  split
  · exact hle
  · simp only [List.length_append]
    omega

theorem length_le_readNumber_of_decimal {whole fraction : List Char}
    (hwhole : ∀ d ∈ whole, d.isDigit) (hne : fraction ≠ [])
    (hfraction : ∀ d ∈ fraction, d.isDigit) (h : whole ++ '.' :: fraction <+: cs) :
    (whole ++ '.' :: fraction).length ≤ (readNumber cs).text.length := by
  obtain ⟨rest, rfl⟩ := h
  have hsplit : whole ++ '.' :: fraction ++ rest = whole ++ ('.' :: (fraction ++ rest)) := by simp
  have hstop : ∀ d ∈ ('.' :: (fraction ++ rest)).head?, d.isDigit = false := by simp
  have hpre := prefix_takeWhile_of_all hfraction (List.prefix_append fraction rest)
  have hle := hpre.length_le
  have hpos := List.length_pos_iff.2 hne
  have hnot : (fraction ++ rest).takeWhile Char.isDigit ≠ [] := by
    intro h
    rw [h, List.length_nil] at hle
    omega
  simp only [readNumber, hsplit, takeWhile_eq_of_stop hwhole hstop,
    dropWhile_eq_of_stop hwhole hstop, fractionDigits, List.isEmpty_iff, hnot, ↓reduceIte,
    List.length_append, List.length_cons]
  omega

theorem length_le_of_word {l : Lexeme} {d : Char} {ds : List Char}
    (h : readLexeme pos c cs = .ok l) (hd : isWordStart d) (hds : ∀ e ∈ ds, isWordPart e)
    (hother : d :: ds <+: c :: cs) : (d :: ds).length ≤ l.text.length := by
  have hrun : ∀ e ∈ d :: ds, isWordPart e :=
    List.forall_mem_cons.2 ⟨isWordPart_of_isWordStart hd, hds⟩
  obtain rfl : d = c := (List.cons_prefix_cons.1 hother).1
  rw [readLexeme_word hd] at h
  cases h
  exact (prefix_takeWhile_of_all hrun hother).length_le

/-- The lexeme read is at least as long as any lexeme at its place. -/
theorem length_le_of_readLexeme {l : Lexeme} {other : List Char} {kind : TokenKind}
    (h : readLexeme pos c cs = .ok l) (hspells : Spells other kind) (hother : other <+: c :: cs) :
    other.length ≤ l.text.length := by
  cases hspells with
  | sign sign =>
    obtain ⟨found, rest, hread, rfl⟩ := (readLexeme_sign_iff hother).1 h
    exact Punct.length_le_of_read? hread hother
  | keyword word =>
    obtain ⟨d, ds, hspelling, hd, hds⟩ := word.spelling_eq_word
    rw [hspelling] at hother ⊢
    exact length_le_of_word h hd hds hother
  | ident d ds hd hds _ => exact length_le_of_word h hd hds hother
  | whole digits number hne hdigits hnumber =>
    obtain ⟨d, ds, rfl⟩ := List.exists_cons_of_ne_nil hne
    obtain rfl : d = c := (List.cons_prefix_cons.1 hother).1
    rw [readLexeme_digit (hdigits d List.mem_cons_self)] at h
    cases h
    exact length_le_readNumber_of_whole hdigits hother
  | decimal whole fraction number hne hwhole hne' hfraction hnumber =>
    obtain ⟨d, ds, rfl⟩ := List.exists_cons_of_ne_nil hne
    obtain rfl : d = c := (List.cons_prefix_cons.1 hother).1
    rw [readLexeme_digit (hwhole d List.mem_cons_self)] at h
    cases h
    exact length_le_readNumber_of_decimal hwhole hne' hfraction hother
  | string body hbody =>
    obtain ⟨rest, htext⟩ := hother
    obtain ⟨rfl, rfl⟩ : '"' = c ∧ body ++ '"' :: rest = cs := by simpa using htext
    rw [readLexeme_string hbody] at h
    cases h
    exact Nat.le_refl _

end Readers

/-! ## The lexeme read is the longest one -/

section Exactness

variable {pos : Position} {c : Char} {cs text rest : List Char}

/-- What stands behind a longest lexeme does not continue it. -/
theorem Longest.stop {p : Char → Bool} (h : Longest text rest)
    (hmore : ∀ d, p d → ∃ kind, Spells (text ++ [d]) kind) : ∀ d ∈ rest.head?, p d = false := by
  intro d hd
  rw [Bool.eq_false_iff]
  intro hp
  obtain ⟨tail, rfl⟩ : ∃ tail, rest = [d] ++ tail := by
    cases rest with
    | nil => cases hd
    | cons e tail => exact ⟨tail, by simpa using hd⟩
  obtain ⟨kind, hspells⟩ := hmore d hp
  exact h.not_spells (List.cons_ne_nil _ _) kind hspells

theorem readLexeme_of_word (hc : isWordStart c) (hcs : ∀ d ∈ cs, isWordPart d)
    (hlongest : Longest (c :: cs) rest) :
    readLexeme pos c (cs ++ rest) =
      .ok ⟨.ofWord (String.ofList (c :: cs)), c :: cs, rest⟩ := by
  have hrun : ∀ d ∈ c :: cs, isWordPart d :=
    List.forall_mem_cons.2 ⟨isWordPart_of_isWordStart hc, hcs⟩
  have hstop : ∀ d ∈ rest.head?, isWordPart d = false := by
    refine hlongest.stop fun d hd => ⟨.ofWord (String.ofList (c :: (cs ++ [d]))), ?_⟩
    refine spells_word hc ?_
    simpa [or_imp, forall_and] using ⟨hcs, hd⟩
  rw [readLexeme_word hc, readWord, ← List.cons_append, takeWhile_eq_of_stop hrun hstop,
    dropWhile_eq_of_stop hrun hstop]

theorem readNumber_of_whole (hne : text ≠ []) (hdigits : ∀ d ∈ text, d.isDigit)
    (hlongest : Longest text rest) :
    readNumber (text ++ rest) = ⟨.number (Decimal.toFloat text []), text, rest⟩ := by
  have hstop : ∀ d ∈ rest.head?, d.isDigit = false := by
    refine hlongest.stop fun d hd =>
      ⟨_, .whole (text ++ [d]) _ (by simp) ?_ (Decimal.toFloat_nearest ..)⟩
    simpa [or_imp, forall_and] using ⟨hdigits, hd⟩
  have hfraction : fractionDigits rest = [] := by
    by_contra hfraction
    have tile := fractionDigits_tiles rest hfraction
    have hspells := Spells.decimal text (fractionDigits rest) _ hne hdigits hfraction
      isDigit_of_mem_fractionDigits (Decimal.toFloat_nearest ..)
    exact Longest.not_spells (tile ▸ hlongest) (List.cons_ne_nil _ _) _ hspells
  simp [readNumber, takeWhile_eq_of_stop hdigits hstop, dropWhile_eq_of_stop hdigits hstop,
    hfraction]

theorem readNumber_of_decimal {whole fraction : List Char} (hne : whole ≠ [])
    (hwhole : ∀ d ∈ whole, d.isDigit) (hne' : fraction ≠ []) (hfraction : ∀ d ∈ fraction, d.isDigit)
    (hlongest : Longest (whole ++ '.' :: fraction) rest) :
    readNumber (whole ++ '.' :: fraction ++ rest) =
      ⟨.number (Decimal.toFloat whole fraction), whole ++ '.' :: fraction, rest⟩ := by
  have hpoint : ∀ d ∈ ('.' :: (fraction ++ rest)).head?, d.isDigit = false := by simp
  have hstop : ∀ d ∈ rest.head?, d.isDigit = false := by
    refine hlongest.stop fun d hd => ⟨.number (Decimal.toFloat whole (fraction ++ [d])), ?_⟩
    rw [List.append_assoc, List.cons_append]
    refine .decimal whole (fraction ++ [d]) _ hne hwhole (by simp) ?_ (Decimal.toFloat_nearest ..)
    simpa [or_imp, forall_and] using ⟨hfraction, hd⟩
  have hsplit : whole ++ '.' :: fraction ++ rest = whole ++ '.' :: (fraction ++ rest) := by simp
  simp [readNumber, hsplit, takeWhile_eq_of_stop hwhole hpoint, dropWhile_eq_of_stop hwhole hpoint,
    fractionDigits, takeWhile_eq_of_stop hfraction hstop, hne']

/-- A longest lexeme is read where it stands. -/
theorem readLexeme_of_spells (pos : Position) {kind : TokenKind} (hspells : Spells text kind)
    (hlongest : Longest text rest) (htext : text ++ rest = c :: cs) :
    readLexeme pos c cs = .ok ⟨kind, text, rest⟩ := by
  cases hspells with
  | sign sign =>
    have hread := Punct.read?_of_longest hlongest
    rw [htext] at hread
    exact (readLexeme_sign_iff ⟨rest, htext⟩).2 ⟨sign, rest, hread, rfl⟩
  | keyword word =>
    obtain ⟨d, ds, hspelling, hd, hds⟩ := word.spelling_eq_word
    have hword : String.ofList (d :: ds) = word.spelling := by
      rw [← hspelling, String.ofList_toList]
    rw [hspelling] at hlongest htext ⊢
    obtain ⟨rfl, rfl⟩ : d = c ∧ ds ++ rest = cs := by simpa using htext
    rw [readLexeme_of_word hd hds hlongest, hword, TokenKind.ofWord_spelling]
  | ident d ds hd hds hfree =>
    obtain ⟨rfl, rfl⟩ : d = c ∧ ds ++ rest = cs := by simpa using htext
    rw [readLexeme_of_word hd hds hlongest, TokenKind.ofWord_eq_ident hfree]
  | whole digits number hne hdigits hnumber =>
    obtain ⟨d, ds, rfl⟩ := List.exists_cons_of_ne_nil hne
    obtain ⟨rfl, rfl⟩ : d = c ∧ ds ++ rest = cs := by simpa using htext
    rw [readLexeme_digit (hdigits d List.mem_cons_self),
      hnumber.unique (Decimal.toFloat_nearest ..)]
    exact congrArg _ (readNumber_of_whole hne hdigits hlongest)
  | decimal whole fraction number hne hwhole hne' hfraction hnumber =>
    obtain ⟨d, ds, rfl⟩ := List.exists_cons_of_ne_nil hne
    obtain ⟨rfl, rfl⟩ : d = c ∧ ds ++ '.' :: fraction ++ rest = cs := by simpa using htext
    rw [readLexeme_digit (hwhole d List.mem_cons_self),
      hnumber.unique (Decimal.toFloat_nearest ..)]
    exact congrArg _ (readNumber_of_decimal hne hwhole hne' hfraction hlongest)
  | string body hbody =>
    obtain ⟨rfl, rfl⟩ : '"' = c ∧ body ++ '"' :: rest = cs := by simpa using htext
    exact readLexeme_string hbody

/-- What is read at a place is the longest lexeme there, with the token it spells. -/
theorem readLexeme_eq_ok_iff {l : Lexeme} :
    readLexeme pos c cs = .ok l ↔
      Spells l.text l.kind ∧ Longest l.text l.rest ∧ l.text ++ l.rest = c :: cs := by
  constructor
  · intro h
    refine ⟨readLexeme_spells h, fun other kind hother hprefix => ?_, readLexeme_tiles h⟩
    rw [readLexeme_tiles h] at hprefix
    exact length_le_of_readLexeme h hother hprefix
  · rintro ⟨hspells, hlongest, htext⟩
    exact readLexeme_of_spells pos hspells hlongest htext

/-- A lexeme determines the kind of its token and what the token stands for. -/
theorem Spells.unique {kind kind' : TokenKind} (h : Spells text kind) (h' : Spells text kind') :
    kind = kind' := by
  obtain ⟨c, cs, htext⟩ := List.exists_cons_of_ne_nil h.ne_nil
  have hread := readLexeme_of_spells .start h (longest_nil text) (by simpa using htext)
  have hread' := readLexeme_of_spells .start h' (longest_nil text) (by simpa using htext)
  simpa using hread.symm.trans hread'

end Exactness

end Script
