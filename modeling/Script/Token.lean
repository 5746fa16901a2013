import Script.Position

/-!
# Tokens

The words a script is made of.

- `Keyword`, `Punct`: the fixed words and signs, with their spellings.
- `TokenKind`, `Token`: a token's kind with its payload, and the token with its lexeme and position.
- `TokenKind.ofWord`: the kind of a word, a keyword or an identifier.
-/

namespace Script

/-! ## Fixed words and signs -/

/-- Reserved words. -/
inductive Keyword
  | andKw
  | orKw
  | ifKw
  | elseKw
  | whileKw
  | forKw
  | varKw
  | nilKw
  | trueKw
  | falseKw
  | funKw
  | returnKw
  | printKw
  | breakKw
  | continueKw
  deriving DecidableEq, Inhabited

namespace Keyword

/-- The spelling of a reserved word. -/
def spelling : Keyword → String
  | andKw => "and"
  | orKw => "or"
  | ifKw => "if"
  | elseKw => "else"
  | whileKw => "while"
  | forKw => "for"
  | varKw => "var"
  | nilKw => "nil"
  | trueKw => "true"
  | falseKw => "false"
  | funKw => "fun"
  | returnKw => "return"
  | printKw => "print"
  | breakKw => "break"
  | continueKw => "continue"

/-- Every reserved word. -/
def all : List Keyword :=
  [andKw, orKw, ifKw, elseKw, whileKw, forKw, varKw, nilKw, trueKw, falseKw, funKw, returnKw,
    printKw, breakKw, continueKw]

theorem mem_all (k : Keyword) : k ∈ all := by cases k <;> decide

/-- The reserved word of a given spelling. -/
def ofSpelling? (word : String) : Option Keyword :=
  all.find? (·.spelling = word)

@[simp] theorem ofSpelling?_spelling (k : Keyword) : ofSpelling? k.spelling = some k := by
  cases k <;> decide

end Keyword

/-- Operator signs and punctuation. -/
inductive Punct
  | plus
  | minus
  | star
  | slash
  | bang
  | bangEqual
  | equal
  | equalEqual
  | less
  | lessEqual
  | greater
  | greaterEqual
  | comma
  | semicolon
  | dot
  | leftParen
  | rightParen
  | leftBrace
  | rightBrace
  deriving DecidableEq, Inhabited

/-- The spelling of a sign. -/
def Punct.spelling : Punct → String
  | plus => "+"
  | minus => "-"
  | star => "*"
  | slash => "/"
  | bang => "!"
  | bangEqual => "!="
  | equal => "="
  | equalEqual => "=="
  | less => "<"
  | lessEqual => "<="
  | greater => ">"
  | greaterEqual => ">="
  | comma => ","
  | semicolon => ";"
  | dot => "."
  | leftParen => "("
  | rightParen => ")"
  | leftBrace => "\x7b"
  | rightBrace => "\x7d"

/-! ## Tokens -/

/-- The kind of a token, with what the token stands for. -/
inductive TokenKind
  | number (value : Float)
  | string (value : String)
  | ident (name : String)
  | keyword (word : Keyword)
  | punct (sign : Punct)
  | eof
  deriving DecidableEq, Inhabited

/-- The kind of a word: a keyword if it is spelled like one, else an identifier. -/
def TokenKind.ofWord (word : String) : TokenKind :=
  match Keyword.ofSpelling? word with
  | some k => .keyword k
  | none => .ident word

@[simp] theorem TokenKind.ofWord_spelling (k : Keyword) :
    TokenKind.ofWord k.spelling = .keyword k := by
  simp [TokenKind.ofWord]

/-- A token: its kind, the stretch of text it was read from, and where that stretch begins. The
lexeme of the end of input is empty. -/
structure Token where
  kind : TokenKind
  lexeme : String
  pos : Position
  deriving DecidableEq, Inhabited

end Script
