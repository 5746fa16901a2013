import Script.Grammar.Statement
import Script.Proofs.Grammar.Expression.Completeness

/-!
# The statement grammar

Which stretches of tokens are which statements, without any reader: one rule for every production,
each with the tokens it consists of and the positions of the nodes it makes. Which stretch of tokens
is which expression is taken from the reader of expressions.

- `Expr.Segment`: a stretch of tokens that is an expression.
- `Derivation.Declaration`, `Derivation.Simple`: variable declarations, and the statements without
  statements inside.
- `Derivation.Parameters`, `Derivation.FirstClause`, `Derivation.Condition`, `Derivation.Optional`:
  the parts of function declarations and of loops.
- `Derivation.Statement`, `Derivation.Item`, `Derivation.Items`: statements, declarations among
  statements, and lists of them. A statement is *open* if an `else` right behind it would belong to
  one of the `if`s at its end.
-/

namespace Script

/-! ## Expressions as they are -/

/-- The reader of expressions turns the whole of `read` into `e`, wherever the input ends. -/
def Expr.Segment (e : Expr) (read : List Token) : Prop :=
  ∀ stop, Expr.parser ⟨read, stop⟩ = .ok e ⟨[], stop⟩

/-- The segments are the tokens that canonical expressions are written with. -/
theorem Expr.segment_iff {e : Expr} {read : List Token} :
    e.Segment read ↔ e.Canonical ∧ e.Written read := by
  constructor
  · intro h
    obtain ⟨read', hread, hcanonical, hwritten, -⟩ := parser_sound (h .start)
    obtain rfl : read' = read := by simpa using hread.ahead.symm
    exact ⟨hcanonical, hwritten⟩
  · rintro ⟨hcanonical, hwritten⟩ stop
    exact parser_complete hcanonical hwritten (Cursor.reads_all read stop) fun t ht => nomatch ht

namespace Derivation

/-! ## Statements without statements inside -/

/-- A part that may be left out. -/
inductive Optional : Option Expr → List Token → Prop
  | absent : Optional none []
  | present {e : Expr} {read : List Token} : e.Segment read → Optional (some e) read

/-- Variable declarations. They stand at their keyword. -/
inductive Declaration : Stmt → List Token → Prop
  | bare {kw t semicolon : Token} {name : String} :
    kw.kind = .keyword .varKw → t.kind = .ident name → semicolon.kind = .punct .semicolon →
    Declaration (.declare name none kw.pos) [kw, t, semicolon]
  | initialized {kw t eq semicolon : Token} {name : String} {e : Expr} {read : List Token} :
    kw.kind = .keyword .varKw → t.kind = .ident name → eq.kind = .punct .equal → e.Segment read →
    semicolon.kind = .punct .semicolon →
    Declaration (.declare name (some e) kw.pos) (kw :: t :: eq :: (read ++ [semicolon]))

/-- Expressions that are statements. -/
inductive ExpressionStatement : Stmt → List Token → Prop
  | intro {semicolon : Token} {e : Expr} {read : List Token} :
    e.Segment read → semicolon.kind = .punct .semicolon →
    ExpressionStatement (.expression e) (read ++ [semicolon])

/-- Statements without statements inside. Those with a keyword stand at it; jumps are statements
only inside a loop. -/
inductive Simple (inLoop : Bool) : Stmt → List Token → Prop
  | expression {s : Stmt} {read : List Token} : ExpressionStatement s read → Simple inLoop s read
  | print {kw semicolon : Token} {e : Expr} {read : List Token} :
    kw.kind = .keyword .printKw → e.Segment read → semicolon.kind = .punct .semicolon →
    Simple inLoop (.print e kw.pos) (kw :: (read ++ [semicolon]))
  | giveBack {kw semicolon : Token} {value : Option Expr} {read : List Token} :
    kw.kind = .keyword .returnKw → Optional value read → semicolon.kind = .punct .semicolon →
    Simple inLoop (.giveBack value kw.pos) (kw :: (read ++ [semicolon]))
  | exitLoop {kw semicolon : Token} :
    kw.kind = .keyword .breakKw → inLoop = true → semicolon.kind = .punct .semicolon →
    Simple inLoop (.exitLoop kw.pos) [kw, semicolon]
  | nextIteration {kw semicolon : Token} :
    kw.kind = .keyword .continueKw → inLoop = true → semicolon.kind = .punct .semicolon →
    Simple inLoop (.nextIteration kw.pos) [kw, semicolon]

/-! ## Parts of functions and loops -/

/-- Parameters with commas between them, each at its name. -/
inductive Parameters : List Param → List Token → Prop
  | none : Parameters [] []
  | last {t : Token} {name : String} : t.kind = .ident name → Parameters [⟨name, t.pos⟩] [t]
  | more {t comma : Token} {name : String} {p : Param} {params : List Param}
    {read : List Token} :
    t.kind = .ident name → comma.kind = .punct .comma → Parameters (p :: params) read →
    Parameters (⟨name, t.pos⟩ :: p :: params) (t :: comma :: read)

/-- The first clause of a loop, its semicolon included. -/
inductive FirstClause : Option Stmt → List Token → Prop
  | absent {semicolon : Token} : semicolon.kind = .punct .semicolon → FirstClause none [semicolon]
  | declaration {s : Stmt} {read : List Token} : Declaration s read → FirstClause (some s) read
  | expression {s : Stmt} {read : List Token} :
    ExpressionStatement s read → FirstClause (some s) read

/-- The condition of a loop at `pos`: left out, it always holds. -/
inductive Condition (pos : Position) : Expr → List Token → Prop
  | always : Condition pos (.literal (.bool true) pos) []
  | given {e : Expr} {read : List Token} : e.Segment read → Condition pos e read

/-! ## Statements -/

mutual

/-- `Statement inLoop isOpen s read`: the tokens `read` are the statement `s`, at a place inside a
loop of the same function body if `inLoop`. With `isOpen`, an `else` behind it would be taken by an
`if` at its end, so in front of an `else` only a statement that is not open is a branch. -/
inductive Statement : Bool → Bool → Stmt → List Token → Prop
  | simple {inLoop : Bool} {s : Stmt} {read : List Token} :
    Simple inLoop s read → Statement inLoop false s read
  | block {inLoop : Bool} {l r : Token} {body : List Stmt} {read : List Token} :
    l.kind = .punct .leftBrace → Items inLoop body read → r.kind = .punct .rightBrace →
    Statement inLoop false (.block body) (l :: (read ++ [r]))
  | branch {inLoop isOpen : Bool} {kw l r : Token} {condition : Expr} {whenTrue : Stmt}
    {test read : List Token} :
    kw.kind = .keyword .ifKw → l.kind = .punct .leftParen → condition.Segment test →
    r.kind = .punct .rightParen → Statement inLoop isOpen whenTrue read →
    Statement inLoop true (.branch condition whenTrue none kw.pos)
      (kw :: l :: (test ++ r :: read))
  | branches {inLoop isOpen : Bool} {kw l r els : Token} {condition : Expr}
    {whenTrue whenFalse : Stmt} {test before after : List Token} :
    kw.kind = .keyword .ifKw → l.kind = .punct .leftParen → condition.Segment test →
    r.kind = .punct .rightParen → Statement inLoop false whenTrue before →
    els.kind = .keyword .elseKw → Statement inLoop isOpen whenFalse after →
    Statement inLoop isOpen (.branch condition whenTrue (some whenFalse) kw.pos)
      (kw :: l :: (test ++ r :: (before ++ els :: after)))
  | whileLoop {inLoop isOpen : Bool} {kw l r : Token} {condition : Expr} {body : Stmt}
    {test read : List Token} :
    kw.kind = .keyword .whileKw → l.kind = .punct .leftParen → condition.Segment test →
    r.kind = .punct .rightParen → Statement true isOpen body read →
    Statement inLoop isOpen (.loop condition body none kw.pos) (kw :: l :: (test ++ r :: read))
  | forLoop {inLoop isOpen : Bool} {kw l semicolon r : Token} {first : Option Stmt}
    {condition : Expr} {increment : Option Expr} {body : Stmt}
    {start test next read : List Token} :
    kw.kind = .keyword .forKw → l.kind = .punct .leftParen → FirstClause first start →
    Condition kw.pos condition test → semicolon.kind = .punct .semicolon →
    Optional increment next → r.kind = .punct .rightParen → Statement true isOpen body read →
    Statement inLoop isOpen (.block (first.toList ++ [.loop condition body increment kw.pos]))
      (kw :: l :: (start ++ (test ++ semicolon :: (next ++ r :: read))))

/-- A declaration or a statement. A function stands at its keyword, and a loop around it does not
reach into its body. -/
inductive Item : Bool → Stmt → List Token → Prop
  | declaration {inLoop : Bool} {s : Stmt} {read : List Token} :
    Declaration s read → Item inLoop s read
  | function {inLoop : Bool} {kw t l r lbrace rbrace : Token} {name : String}
    {params : List Param} {body : List Stmt} {list read : List Token} :
    kw.kind = .keyword .funKw → t.kind = .ident name → l.kind = .punct .leftParen →
    Parameters params list → (params.map (·.name)).Nodup → params.length ≤ maxArity →
    r.kind = .punct .rightParen → lbrace.kind = .punct .leftBrace → Items false body read →
    rbrace.kind = .punct .rightBrace →
    Item inLoop (.function ⟨name, params, body, kw.pos⟩)
      (kw :: t :: l :: (list ++ r :: lbrace :: (read ++ [rbrace])))
  | statement {inLoop isOpen : Bool} {s : Stmt} {read : List Token} :
    Statement inLoop isOpen s read → Item inLoop s read

/-- Declarations and statements, one behind the other. -/
inductive Items : Bool → List Stmt → List Token → Prop
  | nil {inLoop : Bool} : Items inLoop [] []
  | cons {inLoop : Bool} {s : Stmt} {ss : List Stmt} {first rest : List Token} :
    Item inLoop s first → Items inLoop ss rest → Items inLoop (s :: ss) (first ++ rest)

end

end Derivation

end Script
