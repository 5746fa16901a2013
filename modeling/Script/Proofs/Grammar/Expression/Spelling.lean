import Script.Grammar.Expression

/-!
# Expressions as stretches of tokens

An expression of the grammar is a tree in which every part binds at least as tightly as its place
asks for. Reading the tree off from left to right gives the tokens it is written with.

- `BinaryOp.rung`, `Expr.rung`: how tightly an operator, or the outermost part of an expression,
  binds.
- `Expr.Canonical`: the trees of the grammar.
- `Expr.flatten`: the kinds of the tokens an expression is written with.
- `Expr.Written`: the tokens themselves, where every node stands at the token that the grammar
  assigns to it.
- `TokenKind.opens`, `TokenKind.continues`: the tokens with which expressions begin and go on.
- `Expr.bare`: an expression without its positions.
- `Written.flatten`, `Canonical.writable`: written tokens are of the kinds of the flattening,
  and tokens of these kinds are written for the same tree.
-/

namespace Script

/-! ## Signs -/

/-- The token of an operator in front of its operand. -/
def UnaryOp.kind : UnaryOp → TokenKind
  | .negate => .punct .minus
  | .not => .punct .bang

/-- The token of an operator between two operands. -/
def BinaryOp.kind : BinaryOp → TokenKind
  | .add => .punct .plus
  | .subtract => .punct .minus
  | .multiply => .punct .star
  | .divide => .punct .slash
  | .equal => .punct .equalEqual
  | .notEqual => .punct .bangEqual
  | .less => .punct .less
  | .lessEqual => .punct .lessEqual
  | .greater => .punct .greater
  | .greaterEqual => .punct .greaterEqual

/-- The token of an operator that may leave its right operand out. -/
def LogicalOp.kind : LogicalOp → TokenKind
  | .and => .keyword .andKw
  | .or => .keyword .orKw

/-- The token of a constant. -/
def Literal.kind : Literal → TokenKind
  | .number x => .number x
  | .string s => .string s
  | .bool true => .keyword .trueKw
  | .bool false => .keyword .falseKw
  | .nil => .keyword .nilKw

/-- Whether a token of this kind can begin an expression. -/
def TokenKind.opens : TokenKind → Bool
  | .number _ => true
  | .string _ => true
  | .ident _ => true
  | .keyword .trueKw => true
  | .keyword .falseKw => true
  | .keyword .nilKw => true
  | .punct .leftParen => true
  | .punct .minus => true
  | .punct .bang => true
  | _ => false

/-- Whether a token of this kind makes the expression in front of it part of a longer one: it calls
it, assigns to it, or joins it with another. -/
def TokenKind.continues : TokenKind → Bool
  | .punct .leftParen => true
  | .punct .equal => true
  | .keyword .orKw => true
  | .keyword .andKw => true
  | .punct .equalEqual => true
  | .punct .bangEqual => true
  | .punct .less => true
  | .punct .lessEqual => true
  | .punct .greater => true
  | .punct .greaterEqual => true
  | .punct .plus => true
  | .punct .minus => true
  | .punct .star => true
  | .punct .slash => true
  | _ => false

/-! ## How tightly signs bind -/

/-- `or` binds looser than `and`, and both looser than all other operators. -/
def LogicalOp.rung : LogicalOp → Nat
  | .or => 1
  | .and => 2

/-- Equality, comparison, sums, products. -/
def BinaryOp.rung : BinaryOp → Nat
  | .equal => 3
  | .notEqual => 3
  | .less => 4
  | .lessEqual => 4
  | .greater => 4
  | .greaterEqual => 4
  | .add => 5
  | .subtract => 5
  | .multiply => 6
  | .divide => 6

/-! ## The tables of the readers -/

/-- The token of an operator between two operands. -/
def Operator.kind : Operator → TokenKind
  | .binary op => op.kind
  | .logical op => op.kind

namespace TokenKind

variable {kind : TokenKind}

theorem unaryOp?_eq_some_iff {op : UnaryOp} : kind.unaryOp? = some op ↔ kind = op.kind := by
  constructor
  · intro h
    unfold unaryOp? at h
    split at h <;> cases h <;> rfl
  · rintro rfl
    cases op <;> rfl

theorem operator?_eq_some_iff {op : Operator} : kind.operator? = some op ↔ kind = op.kind := by
  constructor
  · intro h
    unfold operator? at h
    split at h <;> cases h <;> rfl
  · rintro rfl
    rcases op with op | op <;> cases op <;> rfl

theorem leaf?_eq_some_iff {pos : Position} {e : Expr} :
    kind.leaf? pos = some e ↔
      (∃ l : Literal, kind = l.kind ∧ e = .literal l pos) ∨
        ∃ name, kind = .ident name ∧ e = .ident name pos := by
  constructor
  · intro h
    unfold leaf? at h
    split at h <;> cases h
    · exact .inl ⟨.number _, rfl, rfl⟩
    · exact .inl ⟨.string _, rfl, rfl⟩
    · exact .inl ⟨.bool true, rfl, rfl⟩
    · exact .inl ⟨.bool false, rfl, rfl⟩
    · exact .inl ⟨.nil, rfl, rfl⟩
    · exact .inr ⟨_, rfl, rfl⟩
  · rintro (⟨l, rfl, rfl⟩ | ⟨name, rfl, rfl⟩)
    · rcases l with _ | _ | (_ | _) | _ <;> rfl
    · rfl

/-- What continues an expression is a parenthesis, the sign of assignment, or an operator. -/
theorem continues_iff :
    kind.continues = true ↔
      kind = .punct .leftParen ∨ kind = .punct .equal ∨ ∃ op, kind.operator? = some op := by
  constructor
  · intro h
    unfold continues at h
    split at h
    all_goals first | exact absurd h Bool.false_ne_true | simp [operator?]
  · rintro (rfl | rfl | ⟨op, hop⟩)
    · rfl
    · rfl
    · obtain rfl := operator?_eq_some_iff.1 hop
      rcases op with op | op <;> cases op <;> rfl

end TokenKind

theorem BinaryOp.level_eq (op : BinaryOp) : (Operator.binary op).level = op.rung := by
  cases op <;> rfl

theorem LogicalOp.level_eq (op : LogicalOp) : (Operator.logical op).level = op.rung := by
  cases op <;> rfl

theorem Operator.level_pos (op : Operator) : 1 ≤ op.level := by
  rcases op with op | op <;> cases op <;> decide

theorem Operator.level_le (op : Operator) : op.level ≤ 6 := by
  rcases op with op | op <;> cases op <;> decide

/-! ## Trees -/

namespace Expr

/-- How tightly the outermost part of an expression binds: assignment loosest, then the operators
between two operands, those in front of one, calls, and closed expressions. -/
def rung : Expr → Nat
  | assign .. => 0
  | logical op .. => op.rung
  | binary op .. => op.rung
  | unary .. => 7
  | call .. => 8
  | literal .. => 9
  | group .. => 9
  | ident .. => 9

/-- The trees of the grammar. Operators between two operands group to the left, and only a group
may bind looser than its place asks for. -/
inductive Canonical : Expr → Prop
  | literal (l : Literal) (pos : Position) : Canonical (.literal l pos)
  | ident (name : String) (pos : Position) : Canonical (.ident name pos)
  | group {inner : Expr} (pos : Position) : Canonical inner → Canonical (.group inner pos)
  | assign {value : Expr} (name : String) (pos : Position) :
    Canonical value → Canonical (.assign name value pos)
  | unary {operand : Expr} (op : UnaryOp) (pos : Position) :
    Canonical operand → 7 ≤ operand.rung → Canonical (.unary op operand pos)
  | binary {op : BinaryOp} {left right : Expr} {pos : Position} :
    Canonical left → op.rung ≤ left.rung → Canonical right → op.rung < right.rung →
    Canonical (.binary op left right pos)
  | logical {op : LogicalOp} {left right : Expr} {pos : Position} :
    Canonical left → op.rung ≤ left.rung → Canonical right → op.rung < right.rung →
    Canonical (.logical op left right pos)
  | call {callee : Expr} {args : List Expr} (pos : Position) :
    Canonical callee → 8 ≤ callee.rung → (∀ arg ∈ args, Canonical arg) →
    args.length ≤ maxArity → Canonical (.call callee args pos)

mutual

/-- The kinds of the tokens that an expression is written with, from left to right. -/
def flatten : Expr → List TokenKind
  | .literal l _ => [l.kind]
  | .group inner _ => .punct .leftParen :: (inner.flatten ++ [.punct .rightParen])
  | .ident name _ => [.ident name]
  | .assign name value _ => .ident name :: .punct .equal :: value.flatten
  | .unary op operand _ => op.kind :: operand.flatten
  | .binary op left right _ => left.flatten ++ op.kind :: right.flatten
  | .logical op left right _ => left.flatten ++ op.kind :: right.flatten
  | .call callee args _ =>
    callee.flatten ++ .punct .leftParen :: (flattenAll args ++ [.punct .rightParen])

/-- The kinds of the tokens of an argument list. -/
def flattenAll : List Expr → List TokenKind
  | [] => []
  | [e] => e.flatten
  | e :: a :: args => e.flatten ++ .punct .comma :: flattenAll (a :: args)

end

mutual

/-- An expression without its positions. -/
def bare : Expr → Expr
  | .literal l _ => .literal l .start
  | .group inner _ => .group inner.bare .start
  | .ident name _ => .ident name .start
  | .assign name value _ => .assign name value.bare .start
  | .unary op operand _ => .unary op operand.bare .start
  | .binary op left right _ => .binary op left.bare right.bare .start
  | .logical op left right _ => .logical op left.bare right.bare .start
  | .call callee args _ => .call callee.bare (bareAll args) .start

/-- Expressions without their positions. -/
def bareAll : List Expr → List Expr
  | [] => []
  | e :: args => e.bare :: bareAll args

end

/-! ## Tokens -/

mutual

/-- An expression is written with these tokens, and its nodes stand at theirs: an operator at its
sign, a call at its closing parenthesis, all else at its first token. -/
inductive Written : Expr → List Token → Prop
  | literal {t : Token} {l : Literal} : t.kind = l.kind → Written (.literal l t.pos) [t]
  | ident {t : Token} {name : String} : t.kind = .ident name → Written (.ident name t.pos) [t]
  | group {l r : Token} {inner : Expr} {read : List Token} :
    l.kind = .punct .leftParen → Written inner read → r.kind = .punct .rightParen →
    Written (.group inner l.pos) (l :: (read ++ [r]))
  | assign {t eq : Token} {name : String} {value : Expr} {read : List Token} :
    t.kind = .ident name → eq.kind = .punct .equal → Written value read →
    Written (.assign name value t.pos) (t :: eq :: read)
  | unary {t : Token} {op : UnaryOp} {operand : Expr} {read : List Token} :
    t.kind = op.kind → Written operand read → Written (.unary op operand t.pos) (t :: read)
  | binary {t : Token} {op : BinaryOp} {left right : Expr} {before after : List Token} :
    Written left before → t.kind = op.kind → Written right after →
    Written (.binary op left right t.pos) (before ++ t :: after)
  | logical {t : Token} {op : LogicalOp} {left right : Expr} {before after : List Token} :
    Written left before → t.kind = op.kind → Written right after →
    Written (.logical op left right t.pos) (before ++ t :: after)
  | call {l r : Token} {callee : Expr} {args : List Expr} {before read : List Token} :
    Written callee before → l.kind = .punct .leftParen → WrittenAll args read →
    r.kind = .punct .rightParen → Written (.call callee args r.pos) (before ++ l :: (read ++ [r]))

/-- Arguments are written with these tokens, commas between them. -/
inductive WrittenAll : List Expr → List Token → Prop
  | none : WrittenAll [] []
  | last {e : Expr} {read : List Token} : Written e read → WrittenAll [e] read
  | more {t : Token} {e a : Expr} {args : List Expr} {before after : List Token} :
    Written e before → t.kind = .punct .comma → WrittenAll (a :: args) after →
    WrittenAll (e :: a :: args) (before ++ t :: after)

end

mutual

/-- The kinds of the tokens that an expression is written with are its flattening. -/
theorem Written.flatten {e : Expr} {read : List Token} (h : e.Written read) :
    read.map (·.kind) = e.flatten := by
  cases h with
  | literal hkind => simp [Expr.flatten, hkind]
  | ident hkind => simp [Expr.flatten, hkind]
  | group hl h hr => simp [Expr.flatten, hl, hr, h.flatten]
  | assign ht heq h => simp [Expr.flatten, ht, heq, h.flatten]
  | unary ht h => simp [Expr.flatten, ht, h.flatten]
  | binary h₁ ht h₂ => simp [Expr.flatten, ht, h₁.flatten, h₂.flatten]
  | logical h₁ ht h₂ => simp [Expr.flatten, ht, h₁.flatten, h₂.flatten]
  | call h hl hargs hr => simp [Expr.flatten, hl, hr, h.flatten, hargs.flatten]

theorem WrittenAll.flatten {args : List Expr} {read : List Token} (h : WrittenAll args read) :
    read.map (·.kind) = flattenAll args := by
  cases h with
  | none => rfl
  | last h => exact h.flatten
  | more h ht hargs => simp [flattenAll, ht, h.flatten, hargs.flatten]

end

/-- What an expression is written with begins with a token that opens expressions. -/
theorem Written.head {e : Expr} {read : List Token} (h : e.Written read) :
    ∃ t rest, read = t :: rest ∧ t.kind.opens = true := by
  cases h with
  | @literal t l hkind =>
    refine ⟨t, [], rfl, ?_⟩
    rw [hkind]
    rcases l with _ | _ | (_ | _) | _ <;> rfl
  | ident hkind => exact ⟨_, _, rfl, by rw [hkind]; rfl⟩
  | group hl h hr => exact ⟨_, _, rfl, by rw [hl]; rfl⟩
  | assign ht heq h => exact ⟨_, _, rfl, by rw [ht]; rfl⟩
  | @unary t op operand read hkind h =>
    refine ⟨t, read, rfl, ?_⟩
    rw [hkind]
    cases op <;> rfl
  | binary hl ht hr =>
    obtain ⟨t, rest, rfl, hopens⟩ := hl.head
    exact ⟨t, _, rfl, hopens⟩
  | logical hl ht hr =>
    obtain ⟨t, rest, rfl, hopens⟩ := hl.head
    exact ⟨t, _, rfl, hopens⟩
  | call h hl hargs hr =>
    obtain ⟨t, rest, rfl, hopens⟩ := h.head
    exact ⟨t, _, rfl, hopens⟩

theorem Written.length_pos {e : Expr} {read : List Token} (h : e.Written read) :
    0 < read.length := by
  obtain ⟨t, rest, rfl, -⟩ := h.head
  exact Nat.succ_pos _

/-! ## Joining operands -/

theorem rung_join (op : Operator) (left right : Expr) (pos : Position) :
    (op.join left right pos).rung = op.level := by
  cases op with
  | binary op => exact op.level_eq.symm
  | logical op => exact op.level_eq.symm

variable {op : Operator} {left right : Expr} {before after : List Token} {t : Token}

theorem Canonical.join (hl : left.Canonical) (hlevel : op.level ≤ left.rung)
    (hr : right.Canonical) (hlevel' : op.level < right.rung) (pos : Position) :
    (op.join left right pos).Canonical := by
  cases op with
  | binary op =>
    rw [op.level_eq] at hlevel hlevel'
    exact .binary hl hlevel hr hlevel'
  | logical op =>
    rw [op.level_eq] at hlevel hlevel'
    exact .logical hl hlevel hr hlevel'

theorem Written.join (hl : left.Written before) (ht : t.kind = op.kind)
    (hr : right.Written after) : (op.join left right t.pos).Written (before ++ t :: after) := by
  cases op with
  | binary op => exact .binary hl ht hr
  | logical op => exact .logical hl ht hr

/-! ## Tokens of the right kinds -/

/-- All tokens of the kinds of its flattening are what the expression is written with, at suitable
positions. -/
def Writable (e : Expr) : Prop :=
  ∀ read : List Token, read.map (·.kind) = e.flatten →
    ∃ e' : Expr, e'.Written read ∧ e'.Canonical ∧ e'.rung = e.rung ∧ e'.bare = e.bare

theorem exists_writtenAll {args : List Expr} (h : ∀ arg ∈ args, arg.Writable)
    {read : List Token} (hread : read.map (·.kind) = flattenAll args) :
    ∃ args', WrittenAll args' read ∧ (∀ arg ∈ args', arg.Canonical) ∧
      args'.length = args.length ∧ bareAll args' = bareAll args := by
  induction args generalizing read with
  | nil =>
    obtain rfl := List.map_eq_nil_iff.1 hread
    exact ⟨[], .none, fun arg harg => (nomatch harg), rfl, rfl⟩
  | cons e args ih =>
    obtain ⟨he, hrest⟩ := List.forall_mem_cons.1 h
    cases args with
    | nil =>
      obtain ⟨e', hwritten, hcanonical, -, hbare⟩ := he read hread
      refine ⟨[e'], .last hwritten, ?_, rfl, ?_⟩
      · intro arg harg
        obtain rfl := List.mem_singleton.1 harg
        exact hcanonical
      · simp only [bareAll, hbare]
    | cons a args =>
      obtain ⟨before, rest, rfl, hbefore, hrest'⟩ := List.map_eq_append_iff.1 hread
      obtain ⟨t, after, rfl, ht, hafter⟩ := List.map_eq_cons_iff.1 hrest'
      obtain ⟨e', hwritten, hcanonical, -, hbare⟩ := he before hbefore
      obtain ⟨args', hargs, hcanonicals, hlength, hbares⟩ := ih hrest hafter
      cases args' with
      | nil => cases hlength
      | cons a' args' =>
        refine ⟨e' :: a' :: args', .more hwritten ht hargs, ?_, congrArg Nat.succ hlength, ?_⟩
        · exact List.forall_mem_cons.2 ⟨hcanonical, hcanonicals⟩
        · rw [bareAll, hbare, hbares, ← bareAll]

/-- Whatever tokens have the kinds of its flattening, a canonical expression is written with
them. -/
theorem Canonical.writable {e : Expr} (h : e.Canonical) : e.Writable := by
  induction h with
  | literal l pos =>
    intro read hread
    obtain ⟨t, rest, rfl, ht, hrest⟩ := List.map_eq_cons_iff.1 hread
    obtain rfl := List.map_eq_nil_iff.1 hrest
    exact ⟨.literal l t.pos, .literal ht, .literal .., rfl, rfl⟩
  | ident name pos =>
    intro read hread
    obtain ⟨t, rest, rfl, ht, hrest⟩ := List.map_eq_cons_iff.1 hread
    obtain rfl := List.map_eq_nil_iff.1 hrest
    exact ⟨.ident name t.pos, .ident ht, .ident .., rfl, rfl⟩
  | group pos _ ih =>
    intro read hread
    obtain ⟨l, rest, rfl, hl, hrest⟩ := List.map_eq_cons_iff.1 hread
    obtain ⟨middle, last, rfl, hmiddle, hlast⟩ := List.map_eq_append_iff.1 hrest
    obtain ⟨r, rest, rfl, hr, hrest⟩ := List.map_eq_cons_iff.1 hlast
    obtain rfl := List.map_eq_nil_iff.1 hrest
    obtain ⟨inner, hwritten, hcanonical, -, hbare⟩ := ih middle hmiddle
    refine ⟨.group inner l.pos, .group hl hwritten hr, .group _ hcanonical, rfl, ?_⟩
    simp only [bare, hbare]
  | assign name pos _ ih =>
    intro read hread
    obtain ⟨t, rest, rfl, ht, hrest⟩ := List.map_eq_cons_iff.1 hread
    obtain ⟨eq, after, rfl, heq, hafter⟩ := List.map_eq_cons_iff.1 hrest
    obtain ⟨value, hwritten, hcanonical, -, hbare⟩ := ih after hafter
    refine ⟨.assign name value t.pos, .assign ht heq hwritten, .assign _ _ hcanonical, rfl, ?_⟩
    simp only [bare, hbare]
  | unary op pos _ hrung ih =>
    intro read hread
    obtain ⟨t, after, rfl, ht, hafter⟩ := List.map_eq_cons_iff.1 hread
    obtain ⟨operand, hwritten, hcanonical, hsame, hbare⟩ := ih after hafter
    refine ⟨.unary op operand t.pos, .unary ht hwritten, .unary _ _ hcanonical ?_, rfl, ?_⟩
    · exact hsame ▸ hrung
    · simp only [bare, hbare]
  | binary _ hl _ hr ihl ihr =>
    intro read hread
    obtain ⟨before, rest, rfl, hbefore, hrest⟩ := List.map_eq_append_iff.1 hread
    obtain ⟨t, after, rfl, ht, hafter⟩ := List.map_eq_cons_iff.1 hrest
    obtain ⟨left, hwl, hcl, hsl, hbl⟩ := ihl before hbefore
    obtain ⟨right, hwr, hcr, hsr, hbr⟩ := ihr after hafter
    refine ⟨.binary _ left right t.pos, .binary hwl ht hwr, .binary hcl ?_ hcr ?_, rfl, ?_⟩
    · exact hsl ▸ hl
    · exact hsr ▸ hr
    · simp only [bare, hbl, hbr]
  | logical _ hl _ hr ihl ihr =>
    intro read hread
    obtain ⟨before, rest, rfl, hbefore, hrest⟩ := List.map_eq_append_iff.1 hread
    obtain ⟨t, after, rfl, ht, hafter⟩ := List.map_eq_cons_iff.1 hrest
    obtain ⟨left, hwl, hcl, hsl, hbl⟩ := ihl before hbefore
    obtain ⟨right, hwr, hcr, hsr, hbr⟩ := ihr after hafter
    refine ⟨.logical _ left right t.pos, .logical hwl ht hwr, .logical hcl ?_ hcr ?_, rfl, ?_⟩
    · exact hsl ▸ hl
    · exact hsr ▸ hr
    · simp only [bare, hbl, hbr]
  | call pos _ hrung _ hlength ih ihs =>
    intro read hread
    obtain ⟨before, rest, rfl, hbefore, hrest⟩ := List.map_eq_append_iff.1 hread
    obtain ⟨l, rest, rfl, hl, hrest⟩ := List.map_eq_cons_iff.1 hrest
    obtain ⟨middle, last, rfl, hmiddle, hlast⟩ := List.map_eq_append_iff.1 hrest
    obtain ⟨r, rest, rfl, hr, hrest⟩ := List.map_eq_cons_iff.1 hlast
    obtain rfl := List.map_eq_nil_iff.1 hrest
    obtain ⟨callee, hwritten, hcanonical, hsame, hbare⟩ := ih before hbefore
    obtain ⟨args, hwrittens, hcanonicals, hcount, hbares⟩ := exists_writtenAll ihs hmiddle
    refine ⟨.call callee args r.pos, .call hwritten hl hwrittens hr,
      .call _ hcanonical ?_ hcanonicals ?_, rfl, ?_⟩
    · exact hsame ▸ hrung
    · exact hcount ▸ hlength
    · simp only [bare, hbare, hbares]

end Expr

end Script
