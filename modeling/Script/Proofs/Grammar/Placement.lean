import Script.Program
import Script.Proofs.Grammar.Program

/-!
# Where statements stand

The grammar admits jumps out of loops only inside loops, and no parameter name twice. Both can be
told from the tree alone, without its tokens.

- `Stmt.Placed`: a statement whose jumps all stand inside loops of the same function body, and whose
  functions have parameters with different names.
- `Stmt.Inside`: a statement inside another, with no loop and no function between them.
- `compile_placed`: the statements of every program that a text compiles to are placed at top level.
-/

namespace Script

/-! ## Trees -/

/-- A statement may stand at a place that is inside a loop of the same function body if `inLoop`. A
function body is inside no loop. -/
inductive Stmt.Placed : Bool → Stmt → Prop
  | expression {inLoop : Bool} (e : Expr) : Placed inLoop (.expression e)
  | print {inLoop : Bool} (e : Expr) (pos : Position) : Placed inLoop (.print e pos)
  | declare {inLoop : Bool} (name : String) (initial : Option Expr) (pos : Position) :
    Placed inLoop (.declare name initial pos)
  | block {inLoop : Bool} {body : List Stmt} :
    (∀ s ∈ body, Placed inLoop s) → Placed inLoop (.block body)
  | branch {inLoop : Bool} {whenTrue : Stmt} {whenFalse : Option Stmt} (condition : Expr)
    (pos : Position) :
    Placed inLoop whenTrue → (∀ s ∈ whenFalse, Placed inLoop s) →
    Placed inLoop (.branch condition whenTrue whenFalse pos)
  | loop {inLoop : Bool} {body : Stmt} (condition : Expr) (increment : Option Expr)
    (pos : Position) :
    Placed true body → Placed inLoop (.loop condition body increment pos)
  | exitLoop (pos : Position) : Placed true (.exitLoop pos)
  | nextIteration (pos : Position) : Placed true (.nextIteration pos)
  | function {inLoop : Bool} {decl : FunDecl} :
    (decl.params.map (·.name)).Nodup → (∀ s ∈ decl.body, Placed false s) →
    Placed inLoop (.function decl)
  | giveBack {inLoop : Bool} (value : Option Expr) (pos : Position) :
    Placed inLoop (.giveBack value pos)

/-- A function declaration as the grammar admits it, wherever it stands. -/
structure FunDecl.Placed (decl : FunDecl) : Prop where
  names : (decl.params.map (·.name)).Nodup
  body : ∀ s ∈ decl.body, s.Placed false

namespace Stmt

variable {inLoop : Bool}

theorem placed_block_iff {body : List Stmt} :
    (Stmt.block body).Placed inLoop ↔ ∀ s ∈ body, s.Placed inLoop := by
  constructor
  · intro h
    cases h with
    | block h => exact h
  · exact .block

theorem placed_branch_iff {condition : Expr} {whenTrue : Stmt} {whenFalse : Option Stmt}
    {pos : Position} : (Stmt.branch condition whenTrue whenFalse pos).Placed inLoop ↔
      whenTrue.Placed inLoop ∧ ∀ s ∈ whenFalse, s.Placed inLoop := by
  constructor
  · intro h
    cases h with
    | branch _ _ htrue hfalse => exact ⟨htrue, hfalse⟩
  · rintro ⟨htrue, hfalse⟩
    exact .branch _ _ htrue hfalse

theorem placed_loop_iff {condition : Expr} {body : Stmt} {increment : Option Expr}
    {pos : Position} :
    (Stmt.loop condition body increment pos).Placed inLoop ↔ body.Placed true := by
  constructor
  · intro h
    cases h with
    | loop _ _ _ h => exact h
  · exact .loop _ _ _

theorem placed_exitLoop_iff {pos : Position} :
    (Stmt.exitLoop pos).Placed inLoop ↔ inLoop = true := by
  constructor
  · intro h
    cases h
    rfl
  · rintro rfl
    exact .exitLoop pos

theorem placed_nextIteration_iff {pos : Position} :
    (Stmt.nextIteration pos).Placed inLoop ↔ inLoop = true := by
  constructor
  · intro h
    cases h
    rfl
  · rintro rfl
    exact .nextIteration pos

theorem placed_function_iff {decl : FunDecl} :
    (Stmt.function decl).Placed inLoop ↔ decl.Placed := by
  constructor
  · intro h
    cases h with
    | function hnames hbody => exact ⟨hnames, hbody⟩
  · rintro ⟨hnames, hbody⟩
    exact .function hnames hbody

end Stmt

/-- The statement `s` is part of another, with no loop and no function between them. -/
inductive Stmt.Inside (s : Stmt) : Stmt → Prop
  | self : Inside s s
  | block {t : Stmt} {body : List Stmt} : t ∈ body → Inside s t → Inside s (.block body)
  | whenTrue {condition : Expr} {t : Stmt} {whenFalse : Option Stmt} {pos : Position} :
    Inside s t → Inside s (.branch condition t whenFalse pos)
  | whenFalse {condition : Expr} {whenTrue t : Stmt} {pos : Position} :
    Inside s t → Inside s (.branch condition whenTrue (some t) pos)

/-- What is inside a part of a statement is inside the statement. -/
theorem Stmt.Inside.trans {s t u : Stmt} (h : s.Inside t) (h' : t.Inside u) : s.Inside u := by
  induction h' with
  | self => exact h
  | block hmem _ ih => exact .block hmem ih
  | whenTrue _ ih => exact .whenTrue ih
  | whenFalse _ ih => exact .whenFalse ih

/-! ## What the grammar derives -/

namespace Derivation

variable {inLoop : Bool} {s : Stmt} {read : List Token}

theorem Declaration.placed (h : Declaration s read) : s.Placed inLoop := by
  cases h with
  | bare => exact .declare ..
  | initialized => exact .declare ..

theorem ExpressionStatement.placed (h : ExpressionStatement s read) : s.Placed inLoop := by
  cases h
  exact .expression _

theorem Simple.placed (h : Simple inLoop s read) : s.Placed inLoop := by
  cases h with
  | expression h => exact h.placed
  | print => exact .print ..
  | giveBack => exact .giveBack ..
  | exitLoop _ hloop _ =>
    subst hloop
    exact .exitLoop _
  | nextIteration _ hloop _ =>
    subst hloop
    exact .nextIteration _

theorem FirstClause.placed {first : Option Stmt} (h : FirstClause first read) :
    ∀ s ∈ first, s.Placed inLoop := by
  rintro s ⟨⟩
  cases h with
  | declaration h => exact h.placed
  | expression h => exact h.placed

mutual

theorem Statement.placed {inLoop isOpen : Bool} {s : Stmt} {read : List Token}
    (h : Statement inLoop isOpen s read) : s.Placed inLoop := by
  cases h with
  | simple hs => exact hs.placed
  | block _ hitems _ => exact Items.placed hitems
  | branch _ _ _ _ htrue => exact .branch _ _ (Statement.placed htrue) fun s hs => nomatch hs
  | branches _ _ _ _ htrue _ hfalse =>
    have hplaced := Statement.placed hfalse
    refine .branch _ _ (Statement.placed htrue) fun s hs => ?_
    obtain rfl := Option.some.inj hs
    exact hplaced
  | whileLoop _ _ _ _ hbody => exact .loop _ _ _ (Statement.placed hbody)
  | forLoop _ _ hfirst _ _ _ _ hbody =>
    have hplaced := Statement.placed hbody
    refine .block fun s hs => ?_
    rcases List.mem_append.1 hs with hs | hs
    · exact hfirst.placed s (Option.mem_toList.1 hs)
    · obtain rfl := List.mem_singleton.1 hs
      exact .loop _ _ _ hplaced
termination_by 2 * read.length

theorem Item.placed {inLoop : Bool} {s : Stmt} {read : List Token} (h : Item inLoop s read) :
    s.Placed inLoop := by
  cases h with
  | declaration hs => exact hs.placed
  | function _ _ _ _ hnames _ _ _ hitems _ =>
    exact .function hnames (Stmt.placed_block_iff.1 (Items.placed hitems))
  | statement hs => exact Statement.placed hs
termination_by 2 * read.length + 1

theorem Items.placed {inLoop : Bool} {ss : List Stmt} {read : List Token}
    (h : Items inLoop ss read) : (Stmt.block ss).Placed inLoop := by
  cases h with
  | nil => exact .block fun s hs => nomatch hs
  | cons hs hss =>
    obtain ⟨t, tail, rfl, -⟩ := Grammar.item_head hs
    have hrest := Stmt.placed_block_iff.1 (Items.placed hss)
    exact .block (List.forall_mem_cons.2 ⟨Item.placed hs, hrest⟩)
termination_by 2 * read.length + 2

end

end Derivation

/-- A text that compiles is read into tokens first. -/
theorem exists_tokens_of_compile {source : String} {program : Program}
    (h : compile source = .ok program) :
    ∃ tokens, scan source = .ok tokens ∧ parse tokens = .ok program := by
  unfold compile at h
  cases htokens : scan source with
  | error d =>
    rw [htokens] at h
    cases h
  | ok tokens =>
    rw [htokens] at h
    exact ⟨tokens, rfl, h⟩

/-- The checks of the grammar have been made on every program that a text compiles to. -/
theorem compile_placed {source : String} {program : Program} (h : compile source = .ok program) :
    ∀ s ∈ program, s.Placed false := by
  obtain ⟨tokens, -, hparse⟩ := exists_tokens_of_compile h
  exact Stmt.placed_block_iff.1 (parse_eq_ok_iff_items.1 hparse).placed

end Script
