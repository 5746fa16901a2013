import Script.Diagnostic
import Script.Token

/-!
# Walking over tokens

A cursor stands in front of the tokens that are still to be read. Reading goes on from where it
stopped, also after a fault, so a fault keeps the cursor.

- `Cursor`: the tokens ahead and the position of the end of input.
- `Cursor.ofTokens`: the tokens up to the first end of input; a stream without one ends on the line
  of its last token, at column zero.
- `Parser`: a reader that moves the cursor, and ends with a result or a diagnostic.
- `next?`, `nextKind?`, `advance`, `accept?`, `expect`, `expectIdent`: readers of one token.
-/

namespace Script

/-- Whether a token kind is the end of input. -/
def TokenKind.isEof : TokenKind → Bool
  | .eof => true
  | _ => false

/-- The tokens ahead, none of them an end of input, and the position of the end of input. -/
structure Cursor where
  ahead : List Token
  stop : Position

/-- The cursor in front of a stream of tokens. What follows the first end of input is not part of
the stream. -/
def Cursor.ofTokens (tokens : List Token) : Cursor where
  ahead := tokens.takeWhile fun t => !t.kind.isEof
  stop :=
    match tokens.find? fun t => t.kind.isEof with
    | some t => t.pos
    | none =>
      match tokens.getLast? with
      | some t => ⟨t.pos.line, 0⟩
      | none => ⟨1, 0⟩

/-- The position of the next token. -/
def Cursor.pos (c : Cursor) : Position :=
  match c.ahead with
  | t :: _ => t.pos
  | [] => c.stop

/-- A bound on how deep reading the tokens ahead can nest: between one token and the next the
grammar descends fewer than sixteen times. -/
def Cursor.budget (c : Cursor) : Nat := 16 * (c.ahead.length + 1)

/-- A reader of tokens. A diagnostic leaves the cursor where the fault was found. -/
abbrev Parser := EStateM Diagnostic Cursor

namespace Parser

/-- The next token, if the input has not ended. -/
@[inline] def next? : Parser (Option Token) :=
  fun c => .ok c.ahead.head? c

/-- The kind of the next token, if the input has not ended. -/
@[inline] def nextKind? : Parser (Option TokenKind) :=
  fun c => .ok (c.ahead.head?.map (·.kind)) c

/-- The position of the next token. -/
@[inline] def here : Parser Position :=
  fun c => .ok c.pos c

/-- Moves behind the next token; stays at the end of input. -/
@[inline] def advance : Parser Unit :=
  fun c => .ok () { c with ahead := c.ahead.tail }

/-- Ends with a fault at a given position. -/
@[inline] def failAt {α : Type} (pos : Position) (fault : Fault) : Parser α :=
  fun c => .error ⟨fault, pos⟩ c

/-- Ends with a fault at the next token. -/
@[inline] def fail {α : Type} (fault : Fault) : Parser α :=
  fun c => .error ⟨fault, c.pos⟩ c

/-- Ends because nothing of the grammar begins with the next token. -/
def unexpected {α : Type} : Parser α :=
  fun c =>
    match c.ahead with
    | t :: _ => .error ⟨.unexpectedToken t.lexeme, t.pos⟩ c
    | [] => .error ⟨.unexpectedToken "end of input", c.stop⟩ c

/-- Whether the next token has a given kind. -/
@[inline] def nextIs (kind : TokenKind) : Parser Bool :=
  fun c =>
    match c.ahead with
    | t :: _ => .ok (t.kind = kind) c
    | [] => .ok false c

/-- Moves behind the next token and gives its position, if it has a given kind. -/
@[inline] def accept? (kind : TokenKind) : Parser (Option Position) :=
  fun c =>
    match c.ahead with
    | t :: rest => if t.kind = kind then .ok (some t.pos) { c with ahead := rest } else .ok none c
    | [] => .ok none c

/-- Moves behind a sign that has to be there and gives its position. -/
def expect (sign : Punct) (what : Expectation) : Parser Position :=
  fun c =>
    match c.ahead with
    | t :: rest =>
      if t.kind = .punct sign then .ok t.pos { c with ahead := rest }
      else .error ⟨.missing what, t.pos⟩ c
    | [] => .error ⟨.missing what, c.stop⟩ c

/-- Moves behind an identifier that has to be there and gives its name. -/
def expectIdent (what : Expectation) : Parser String :=
  fun c =>
    match c.ahead with
    | ⟨.ident name, _, _⟩ :: rest => .ok name { c with ahead := rest }
    | t :: _ => .error ⟨.missing what, t.pos⟩ c
    | [] => .error ⟨.missing what, c.stop⟩ c

end Parser

end Script
