import Script.Proofs.Grammar.Placement
import Script.Proofs.Syntax.Declarations
import Script.Proofs.Token.Order

/-!
# Where functions are declared

The grammar admits a function declaration only in a list of statements, not as a branch and not as
the body of a loop. Each begins with a keyword of its own, so no two stand at one position.

- `Derivation.declarations_sublist`: functions stand at their keywords, in the order of the text.
- `Derivation.Stands`: what stands somewhere in a program that the grammar derives.
- `Statement.not_declares`: what is read as a statement declares no name.
- `Stmt.Arranged`, `arranged_of_stands`: branches and loop bodies declare nothing by themselves.
- `compile_declares`: both for every program that a text compiles to.
-/

namespace Script

namespace Derivation

variable {inLoop isOpen : Bool} {s t : Stmt} {read : List Token} {ss : List Stmt}

/-! ## Positions of functions -/

theorem Declaration.declarations_eq (h : Declaration s read) : s.declarations = [] := by
  cases h <;> rfl

theorem ExpressionStatement.declarations_eq (h : ExpressionStatement s read) :
    s.declarations = [] := by
  cases h
  rfl

theorem Simple.declarations_eq (h : Simple inLoop s read) : s.declarations = [] := by
  cases h with
  | expression h => exact h.declarations_eq
  | _ => rfl

theorem FirstClause.declarations_eq {first : Option Stmt} (h : FirstClause first read) :
    Stmt.declarationsEach first.toList = [] := by
  cases h with
  | absent => rfl
  | declaration h => exact (List.append_nil _).trans h.declarations_eq
  | expression h => exact (List.append_nil _).trans h.declarations_eq

/-- The functions of statements stand at tokens that are read, in the same order. -/
def PlacedAt (decls : List FunDecl) (read : List Token) : Prop :=
  (decls.map (·.pos)).Sublist (read.map (·.pos))

theorem placedAt_nil (read : List Token) : PlacedAt [] read := List.nil_sublist _

theorem PlacedAt.append {ds es : List FunDecl} {before after : List Token}
    (h : PlacedAt ds before) (h' : PlacedAt es after) : PlacedAt (ds ++ es) (before ++ after) := by
  unfold PlacedAt
  rw [List.map_append, List.map_append]
  exact List.Sublist.append h h'

/-- More tokens may be read in front and behind. -/
theorem PlacedAt.widen {ds : List FunDecl} (h : PlacedAt ds read) (before after : List Token) :
    PlacedAt ds (before ++ (read ++ after)) := by
  have h' := (placedAt_nil before).append (h.append (placedAt_nil after))
  rwa [List.append_nil] at h'

mutual

theorem Statement.placedAt {inLoop isOpen : Bool} {s : Stmt} {read : List Token}
    (h : Statement inLoop isOpen s read) : PlacedAt s.declarations read := by
  cases h with
  | simple hs =>
    rw [hs.declarations_eq]
    exact placedAt_nil _
  | @block _ l r body read _ hitems _ => exact (Items.placedAt hitems).widen [l] [r]
  | @branch _ _ kw l r _ whenTrue test read _ _ _ _ htrue =>
    have hplaced := (Statement.placedAt htrue).widen (kw :: l :: (test ++ [r])) []
    simpa [Stmt.declarations, Stmt.declarationsElse] using hplaced
  | @branches _ _ kw l r els _ _ _ test before after _ _ _ _ htrue _ hfalse =>
    have hbefore := (Statement.placedAt htrue).widen (kw :: l :: (test ++ [r])) [els]
    have hplaced := hbefore.append (Statement.placedAt hfalse)
    simpa [Stmt.declarations, Stmt.declarationsElse] using hplaced
  | @whileLoop _ _ kw l r _ _ test read _ _ _ _ hbody =>
    have hplaced := (Statement.placedAt hbody).widen (kw :: l :: (test ++ [r])) []
    simpa [Stmt.declarations] using hplaced
  | @forLoop _ _ kw l semicolon r first _ _ _ start test next read _ _ hfirst _ _ _ _ hbody =>
    have hplaced := (Statement.placedAt hbody).widen
      (kw :: l :: (start ++ (test ++ semicolon :: (next ++ [r])))) []
    simpa [Stmt.declarations, Stmt.declarationsEach_append, hfirst.declarations_eq,
      Stmt.declarationsEach] using hplaced
termination_by 2 * read.length

theorem Item.placedAt {inLoop : Bool} {s : Stmt} {read : List Token} (h : Item inLoop s read) :
    PlacedAt s.declarations read := by
  cases h with
  | declaration hs =>
    rw [hs.declarations_eq]
    exact placedAt_nil _
  | @function _ kw t l r lbrace rbrace name params body list read _ _ _ _ _ _ _ _ hitems _ =>
    -- the function itself stands at the keyword
    have hbody := (Items.placedAt hitems).widen (t :: l :: (list ++ [r, lbrace])) [rbrace]
    have hself : PlacedAt [⟨name, params, body, kw.pos⟩] [kw] := List.Sublist.refl _
    simpa [Stmt.declarations, FunDecl.declarations] using hself.append hbody
  | statement hs => exact Statement.placedAt hs
termination_by 2 * read.length + 1

theorem Items.placedAt {inLoop : Bool} {ss : List Stmt} {read : List Token}
    (h : Items inLoop ss read) : PlacedAt (Stmt.declarationsEach ss) read := by
  cases h with
  | nil => exact placedAt_nil _
  | cons hs hss =>
    obtain ⟨t, tail, rfl, -⟩ := Grammar.item_head hs
    exact (Item.placedAt hs).append (Items.placedAt hss)
termination_by 2 * read.length + 2

end

/-! ## Branches and loop bodies -/

/-- A statement stands somewhere in a program that the grammar derives: it is derived itself, or is
the loop in a block that a loop with an increment is read as. -/
inductive Stands : Stmt → Prop
  | item {inLoop : Bool} {s : Stmt} {read : List Token} : Item inLoop s read → Stands s
  | loop {isOpen : Bool} {body : Stmt} {read : List Token} (condition : Expr)
    (increment : Option Expr) (pos : Position) :
    Statement true isOpen body read → Stands (.loop condition body increment pos)

/-- Where a statement is read, no function is declared. -/
theorem Statement.own?_eq_none (h : Statement inLoop isOpen s read) : s.own? = none := by
  cases h with
  | simple hs =>
    cases hs with
    | expression h =>
      cases h
      rfl
    | _ => rfl
  | _ => rfl

/-- Where a statement is read, no name is declared: declarations stand in lists of their own. -/
theorem Statement.not_declares (h : Statement inLoop isOpen s read) : ¬ s.Declares := by
  intro hdeclares
  induction hdeclares generalizing inLoop isOpen read with
  | declare =>
    cases h with
    | simple hs =>
      cases hs with
      | expression hs => cases hs
  | function =>
    cases h with
    | simple hs =>
      cases hs with
      | expression hs => cases hs
  | whenTrue _ ih =>
    cases h with
    | simple hs =>
      cases hs with
      | expression hs => cases hs
    | branch _ _ _ _ htrue => exact ih htrue
    | branches _ _ _ _ htrue => exact ih htrue
  | whenFalse _ ih =>
    cases h with
    | simple hs =>
      cases hs with
      | expression hs => cases hs
    | branches _ _ _ _ _ _ hfalse => exact ih hfalse
  | loop _ ih =>
    cases h with
    | simple hs =>
      cases hs with
      | expression hs => cases hs
    | whileLoop _ _ _ _ hbody => exact ih hbody

theorem Items.stands (h : Items inLoop ss read) : ∀ s ∈ ss, Stands s := by
  induction ss generalizing read with
  | nil => exact List.forall_mem_nil _
  | cons s ss ih =>
    cases h with
    | cons hs hss => exact List.forall_mem_cons.2 ⟨.item hs, ih hss⟩

/-- Each part of a statement stands in the program as well. -/
theorem Statement.stands_part (h : Statement inLoop isOpen t read) (hs : s ∈ t.parts) :
    Stands s := by
  cases h with
  | simple h =>
    cases h with
    | expression h =>
      cases h
      cases hs
    | _ => cases hs
  | block _ hitems _ => exact hitems.stands s hs
  | branch _ _ _ _ htrue =>
    obtain rfl := List.mem_singleton.1 hs
    exact .item (.statement htrue)
  | branches _ _ _ _ htrue _ hfalse =>
    rcases List.mem_cons.1 hs with rfl | hs
    · exact .item (.statement htrue)
    · obtain rfl := List.mem_singleton.1 hs
      exact .item (.statement hfalse)
  | whileLoop _ _ _ _ hbody =>
    obtain rfl := List.mem_singleton.1 hs
    exact .item (.statement hbody)
  | forLoop _ _ hfirst _ _ _ _ hbody =>
    rcases List.mem_append.1 hs with hs | hs
    · cases hfirst with
      | absent => cases hs
      | declaration h =>
        obtain rfl := List.mem_singleton.1 hs
        have hitem : Item false s _ := .declaration h
        exact .item hitem
      | expression h =>
        obtain rfl := List.mem_singleton.1 hs
        have hitem : Item false s _ := .statement (.simple (.expression h))
        exact .item hitem
    · obtain rfl := List.mem_singleton.1 hs
      exact .loop _ _ _ hbody

theorem Stands.part (h : Stands t) (hs : s ∈ t.parts) : Stands s := by
  cases h with
  | loop _ _ _ hbody =>
    obtain rfl := List.mem_singleton.1 hs
    exact .item (.statement hbody)
  | item h =>
    cases h with
    | declaration h => cases h <;> cases hs
    | function _ _ _ _ _ _ _ _ hitems _ => exact hitems.stands s hs
    | statement h => exact h.stands_part hs

end Derivation

/-- Branches and loop bodies declare no function by themselves. -/
def Stmt.Arranged : Stmt → Prop
  | .branch _ whenTrue whenFalse _ => whenTrue.own? = none ∧ ∀ s ∈ whenFalse, s.own? = none
  | .loop _ body _ _ => body.own? = none
  | _ => True

theorem arranged_of_stands {s : Stmt} (h : Derivation.Stands s) : s.Arranged := by
  cases h with
  | loop _ _ _ hbody => exact hbody.own?_eq_none
  | item h =>
    cases h with
    | declaration h => cases h <;> trivial
    | function => trivial
    | statement h =>
      cases h with
      | simple h =>
        cases h with
        | expression h =>
          cases h
          trivial
        | _ => trivial
      | branch _ _ _ _ htrue => exact ⟨htrue.own?_eq_none, fun s hs => by cases hs⟩
      | branches _ _ _ _ htrue _ hfalse =>
        refine ⟨htrue.own?_eq_none, fun s hs => ?_⟩
        obtain rfl := Option.some.inj hs
        exact hfalse.own?_eq_none
      | whileLoop _ _ _ _ hbody => exact hbody.own?_eq_none
      | _ => trivial

/-- **Functions are declared in lists of statements, each at a position of its own**, in every
program that a text compiles to. -/
theorem compile_declares {source : String} {program : Program}
    (h : compile source = .ok program) :
    ((Stmt.declarationsEach program).map (·.pos)).Nodup ∧
      ∀ s : Stmt, s.Within program → s.Arranged := by
  obtain ⟨tokens, hscan, hparse⟩ := exists_tokens_of_compile h
  have hitems := parse_eq_ok_iff_items.1 hparse
  constructor
  · have hahead : (Cursor.ofTokens tokens).ahead.Sublist tokens := List.takeWhile_sublist _
    have hplaces : (tokens.map (·.pos)).Nodup :=
      List.pairwise_map.2 ((pairwise_before_of_scan hscan).imp fun hbefore => hbefore.ne)
    exact hplaces.sublist (hitems.placedAt.trans (hahead.map _))
  · intro s hs
    refine arranged_of_stands ?_
    induction hs with
    | top hs => exact hitems.stands _ hs
    | part _ hs ih => exact ih.part hs

end Script
