import Script.Decimal.Reading
import Script.Diagnostic
import Script.Token

/-!
# Reading a text into tokens

A text is a sequence of gaps and lexemes. Gaps are blanks and comments; at every other place the
longest lexeme that begins there is read, whatever follows it.

- `isBlank`, `opensComment`: how gaps begin.
- `Lexeme`, `readLexeme`: the lexeme at the head of a text, and the text behind it.
- `readLexeme_tiles`: a lexeme and the text behind it are together the text that was read.
- `scan`: the tokens of a text, the end of input included, or the first fault.
-/

namespace Script

/-! ## Characters -/

/-- Blank characters. -/
def isBlank (c : Char) : Bool :=
  c = ' ' || c = '\t' || c = '\r' || c = '\n'

/-- Characters with which a word begins. -/
def isWordStart (c : Char) : Bool :=
  c.isAlpha || c = '_'

/-- Characters of which a word consists. -/
def isWordPart (c : Char) : Bool :=
  c.isAlphanum || c = '_'

/-- Whether a comment begins at the character `c` with `cs` behind it. A comment runs up to the
next line feed. -/
def opensComment (c : Char) (cs : List Char) : Bool :=
  c = '#' || (c = '/' && cs.head? = some '/')

/-! ## Lexemes -/

/-- A lexeme at the head of a text: the kind of its token, its characters, and what follows. -/
structure Lexeme where
  kind : TokenKind
  text : List Char
  rest : List Char

/-- The sign at the head of a text, with two characters if there is one, and what follows. -/
def Punct.read? : List Char → Option (Punct × List Char)
  | '!' :: '=' :: cs => some (.bangEqual, cs)
  | '=' :: '=' :: cs => some (.equalEqual, cs)
  | '<' :: '=' :: cs => some (.lessEqual, cs)
  | '>' :: '=' :: cs => some (.greaterEqual, cs)
  | '!' :: cs => some (.bang, cs)
  | '=' :: cs => some (.equal, cs)
  | '<' :: cs => some (.less, cs)
  | '>' :: cs => some (.greater, cs)
  | '+' :: cs => some (.plus, cs)
  | '-' :: cs => some (.minus, cs)
  | '*' :: cs => some (.star, cs)
  | '/' :: cs => some (.slash, cs)
  | ',' :: cs => some (.comma, cs)
  | ';' :: cs => some (.semicolon, cs)
  | '.' :: cs => some (.dot, cs)
  | '(' :: cs => some (.leftParen, cs)
  | ')' :: cs => some (.rightParen, cs)
  | '\x7b' :: cs => some (.leftBrace, cs)
  | '\x7d' :: cs => some (.rightBrace, cs)
  | _ => none

/-- The digits behind a point that stands at the head of a text; none if there is no point. -/
def fractionDigits : List Char → List Char
  | '.' :: cs => cs.takeWhile Char.isDigit
  | _ => []

/-- The number at the head of a text that begins with a digit. A point that no digit follows is
not part of the number. -/
def readNumber (cs : List Char) : Lexeme :=
  let whole := cs.takeWhile Char.isDigit
  let after := cs.dropWhile Char.isDigit
  let fraction := fractionDigits after
  if fraction.isEmpty then
    ⟨.number (Decimal.toFloat whole []), whole, after⟩
  else
    ⟨.number (Decimal.toFloat whole fraction), whole ++ '.' :: fraction,
      after.drop (fraction.length + 1)⟩

/-- The word at the head of a text that begins with a word character. -/
def readWord (cs : List Char) : Lexeme :=
  let word := cs.takeWhile isWordPart
  ⟨.ofWord (String.ofList word), word, cs.dropWhile isWordPart⟩

/-- The string whose opening quote stands at `pos` and whose other characters begin with `cs`. It
runs to the next quote and holds every character before it as it is. -/
def readString (pos : Position) (cs : List Char) : Except Diagnostic Lexeme :=
  let body := cs.takeWhile (· ≠ '"')
  match cs.dropWhile (· ≠ '"') with
  | [] => .error ⟨.unterminatedString, pos.advanceAll ('"' :: body)⟩
  | quote :: rest => .ok ⟨.string (String.ofList body), '"' :: body ++ [quote], rest⟩

/-- The lexeme that begins with the character `c` at `pos`, when `cs` follows it. -/
def readLexeme (pos : Position) (c : Char) (cs : List Char) : Except Diagnostic Lexeme :=
  if c = '"' then readString pos cs
  else if c.isDigit then .ok (readNumber (c :: cs))
  else if isWordStart c then .ok (readWord (c :: cs))
  else match Punct.read? (c :: cs) with
    | some (sign, rest) => .ok ⟨.punct sign, sign.spelling.toList, rest⟩
    | none => .error ⟨.unexpectedCharacter c, pos⟩

/-! ## A lexeme is a piece of the text -/

theorem Punct.read?_tiles {cs rest : List Char} {sign : Punct}
    (h : Punct.read? cs = some (sign, rest)) : sign.spelling.toList ++ rest = cs := by
  unfold Punct.read? at h
  split at h <;> first | (cases h; rfl) | cases h

theorem Punct.spelling_ne_nil (sign : Punct) : sign.spelling.toList ≠ [] := by
  cases sign <;> decide

theorem isWordPart_of_isWordStart {c : Char} (h : isWordStart c = true) : isWordPart c = true := by
  simp only [isWordStart, isWordPart, Char.isAlphanum, Bool.or_eq_true] at h ⊢
  rcases h with h | h
  · exact .inl (.inl h)
  · exact .inr h

theorem readWord_tiles (cs : List Char) : (readWord cs).text ++ (readWord cs).rest = cs := by
  simp [readWord]

theorem fractionDigits_tiles (cs : List Char) (h : fractionDigits cs ≠ []) :
    '.' :: fractionDigits cs ++ cs.drop ((fractionDigits cs).length + 1) = cs := by
  unfold fractionDigits at h ⊢
  split
  · rename_i cs
    have tile := List.takeWhile_append_dropWhile (p := Char.isDigit) (l := cs)
    have behind : cs.drop (cs.takeWhile Char.isDigit).length = cs.dropWhile Char.isDigit :=
      (congrArg (List.drop _) tile.symm).trans List.drop_left
    simp [behind]
  · simp_all

theorem readNumber_tiles (cs : List Char) : (readNumber cs).text ++ (readNumber cs).rest = cs := by
  unfold readNumber
  by_cases h : (fractionDigits (cs.dropWhile Char.isDigit)).isEmpty
  · simp [h]
  · have tile := fractionDigits_tiles (cs.dropWhile Char.isDigit) (by simpa using h)
    simp only [h, Bool.false_eq_true, ↓reduceIte, List.append_assoc, tile,
      List.takeWhile_append_dropWhile]

theorem readString_tiles {pos : Position} {cs : List Char} {l : Lexeme}
    (h : readString pos cs = .ok l) : l.text ++ l.rest = '"' :: cs := by
  have tile := List.takeWhile_append_dropWhile (p := (· ≠ '"')) (l := cs)
  unfold readString at h
  split at h
  · cases h
  · rename_i quote rest heq
    cases h
    rw [heq] at tile
    simpa using tile

/-- The lexeme read and the text behind it are together the text that was read. -/
theorem readLexeme_tiles {pos : Position} {c : Char} {cs : List Char} {l : Lexeme}
    (h : readLexeme pos c cs = .ok l) : l.text ++ l.rest = c :: cs := by
  unfold readLexeme at h
  split at h
  · rename_i hc
    rw [readString_tiles h, hc]
  · split at h
    · cases h; exact readNumber_tiles _
    · split at h
      · cases h; exact readWord_tiles _
      · split at h
        · rename_i sign rest heq
          cases h
          exact Punct.read?_tiles heq
        · cases h

/-- A lexeme has at least one character. -/
theorem readLexeme_ne_nil {pos : Position} {c : Char} {cs : List Char} {l : Lexeme}
    (h : readLexeme pos c cs = .ok l) : l.text ≠ [] := by
  unfold readLexeme at h
  split at h
  · unfold readString at h
    split at h
    · cases h
    · cases h; simp
  · split at h
    · rename_i hc
      cases h
      unfold readNumber
      dsimp only
      split <;> simp [hc]
    · split at h
      · rename_i hc
        cases h
        simp [readWord, isWordPart_of_isWordStart hc]
      · split at h
        · cases h; exact Punct.spelling_ne_nil _
        · cases h

/-- What follows a lexeme is shorter than the text the lexeme was read from. -/
theorem length_rest_of_readLexeme {pos : Position} {c : Char} {cs : List Char} {l : Lexeme}
    (h : readLexeme pos c cs = .ok l) : l.rest.length < (c :: cs).length := by
  have tile := congrArg List.length (readLexeme_tiles h)
  have := List.length_pos_iff.2 (readLexeme_ne_nil h)
  rw [List.length_append] at tile
  omega

/-! ## The whole text -/

/-- Reads the text `cs`, which begins at `pos`, behind the tokens `done`, latest first. -/
def scanFrom (pos : Position) (done : List Token) : List Char → Except Diagnostic (List Token)
  | [] => .ok (⟨.eof, "", pos⟩ :: done).reverse
  | c :: cs =>
    if isBlank c then scanFrom (pos.advance c) done cs
    else if opensComment c cs then
      scanFrom (pos.advanceAll (c :: cs.takeWhile (· ≠ '\n'))) done (cs.dropWhile (· ≠ '\n'))
    else
      match _h : readLexeme pos c cs with
      | .error d => .error d
      | .ok l =>
        scanFrom (pos.advanceAll l.text) (⟨l.kind, String.ofList l.text, pos⟩ :: done) l.rest
termination_by cs => cs.length
decreasing_by
  · simp
  · exact Nat.lt_succ_of_le (List.dropWhile_sublist _).length_le
  · exact length_rest_of_readLexeme _h

/-- The tokens of a text, ending with the end of input, or the first fault in it. -/
def scan (source : String) : Except Diagnostic (List Token) :=
  scanFrom .start [] source.toList

end Script
