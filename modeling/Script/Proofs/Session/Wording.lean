import Script.Proofs.Grammar.Wording
import Script.Proofs.Machine.Naming
import Script.Proofs.Session.SinkLimit
import Script.Proofs.Session.StaticChecks

/-!
# What runs say

A run names in its diagnostic what the program names: the name of a variable, of a parameter or of a
function. Where the output is taken, it says nothing else, so a text with a fault of any kind is
answered in one line.

- `Control.words`, `Continuation.names`: the words that a machine holds.
- `Configuration.Says`: all of them, those of functions included, are among given ones; `Says.step`
  says that a step keeps this.
- `words_of_run_launch`: the diagnostic of a run names only what the program names.
- `oneLine_of_runSource`: what is shown of the diagnostic about a text is on one line.
-/

namespace Script

/-! ## Words in a machine -/

/-- The words of what is being done at the moment. -/
def Control.words : Control → List String
  | .eval e => e.names
  | .exec st => st.names
  | .done _ => []
  | .failed d => d.fault.words

/-- The names in what remains to be done. -/
def Continuation.names : Continuation → List String
  | .assign name _ => [name]
  | .binaryLeft _ right _ => right.names
  | .logicalLeft _ right => right.names
  | .callee args _ => args.flatMap Expr.names
  | .argument _ _ after _ => after.flatMap Expr.names
  | .define name _ => [name]
  | .branch whenTrue whenFalse => whenTrue.names ++ whenFalse.toList.flatMap Stmt.names
  | .loopTest condition body increment =>
    condition.names ++ (body.names ++ increment.toList.flatMap Expr.names)
  | .loopBody condition body increment =>
    condition.names ++ (body.names ++ increment.toList.flatMap Expr.names)
  | .loopNext condition body increment =>
    condition.names ++ (body.names ++ increment.toList.flatMap Expr.names)
  | .sequence rest => rest.flatMap Stmt.names
  | _ => []

namespace Configuration

/-- The words of the control and the names on the stack are among `W`. -/
structure Worded (W : String → Prop) (c : Configuration) : Prop where
  control : ∀ w ∈ c.control.words, W w
  stack : ∀ p ∈ c.stack, ∀ w ∈ p.names, W w

/-- So are the names in the declarations of all functions. -/
structure Says (W : String → Prop) (c : Configuration) : Prop where
  worded : c.Worded W
  functions : c.All fun fn => ∀ w ∈ fn.decl.names, W w

variable {W : String → Prop} {c : Configuration} {x y : Control} {taken put : Stack} {o : Outcome}
  {p : Continuation} {s : Session} {name : String} {v : Value}

/-! ## What is at fault -/

/-- An operator that is not for its operands names no variable. -/
theorem words_of_unary {op : UnaryOp} {fault : Fault} (h : op.apply v = .error fault) :
    fault.words = [] := by
  unfold UnaryOp.apply at h
  split at h <;> cases h
  rfl

theorem words_of_binary {op : BinaryOp} {w : Value} {fault : Fault}
    (h : op.apply v w = .error fault) : fault.words = [] := by
  unfold BinaryOp.apply at h
  split at h <;> cases h <;> rfl

/-- What is wrong with a definition is wrong with the name defined. -/
theorem words_of_define {a : Arena} {fault : Fault} (h : (a.define name v).2 = some fault) :
    fault.words = [name] := by
  unfold Arena.define at h
  split at h
  · cases h
    rfl
  · split at h <;> cases h
    rfl

theorem words_of_assign {a : Arena} {fault : Fault} (h : (a.assign name v).2 = some fault) :
    fault.words = [name] := by
  unfold Arena.assign at h
  split at h <;> cases h
  rfl

/-- What is wrong with arguments is wrong with the name of a parameter. -/
theorem words_of_bindParams {a : Arena} {params : List Param} {args : List Value}
    {d : Diagnostic} (hparams : ∀ q ∈ params, W q.name)
    (h : (bindParams a params args).2 = some d) : ∀ w ∈ d.fault.words, W w := by
  induction params generalizing a args with
  | nil => cases h
  | cons q params ih =>
    obtain ⟨hq, hparams⟩ := List.forall_mem_cons.1 hparams
    cases args with
    | nil => cases h
    | cons v args =>
      unfold bindParams at h
      split at h
      · exact ih hparams h
      · rename_i arena fault hdefine
        obtain rfl := Option.some.inj h
        rw [words_of_define (congrArg Prod.snd hdefine)]
        exact List.forall_mem_singleton.2 hq

/-- What a step fails over has a name that was there, as long as what it prints is taken. -/
theorem Blames.words {d : Diagnostic} (h : Blames s x taken d) (hx : ∀ w ∈ x.words, W w)
    (htaken : ∀ q ∈ taken, ∀ w ∈ q.names, W w)
    (hheld : ∀ fn : Closure, fn ∈ x.functions ∨ fn ∈ Stack.functions taken →
      ∀ w ∈ fn.decl.names, W w)
    (hopen : s.sink.Open) : ∀ w ∈ d.fault.words, W w := by
  cases h with
  | undefined name pos => exact hx
  | declare hdefine =>
    rw [words_of_define hdefine]
    exact List.forall_mem_singleton.2 (hx _ List.mem_cons_self)
  | function hdefine =>
    rw [words_of_define hdefine]
    refine List.forall_mem_singleton.2 (hx _ ?_)
    rw [Control.words, Stmt.names, FunDecl.names_eq]
    exact List.mem_cons_self
  | define hdefine =>
    rw [words_of_define hdefine]
    exact htaken _ List.mem_cons_self
  | assign hassign =>
    rw [words_of_assign hassign]
    exact htaken _ List.mem_cons_self
  | unary happly =>
    rw [words_of_unary happly]
    exact List.forall_mem_nil _
  | binary happly =>
    rw [words_of_binary happly]
    exact List.forall_mem_nil _
  | print hrefused =>
    rw [Sink.writeLine_open hopen] at hrefused
    cases hrefused
  | callee hsummons => exact List.forall_mem_nil _
  | @arity o p f args pos hsummons =>
    refine List.forall_mem_singleton.2 (hheld f hsummons.held _ ?_)
    rw [FunDecl.names_eq]
    exact List.mem_cons_self
  | room hsummons => exact List.forall_mem_nil _

/-! ## One step -/

/-- What is evaluated, and what waits for it, has the names that were there. -/
theorem Awaits.words {e : Expr} (h : Awaits x taken e p) (hx : ∀ w ∈ x.words, W w)
    (htaken : ∀ q ∈ taken, ∀ w ∈ q.names, W w) : (∀ w ∈ e.names, W w) ∧ ∀ w ∈ p.names, W w := by
  have hnone : ∀ w ∈ ([] : List String), W w := List.forall_mem_nil _
  cases h with
  | assign name value pos =>
    obtain ⟨hname, hvalue⟩ := List.forall_mem_cons.1 hx
    exact ⟨hvalue, List.forall_mem_singleton.2 hname⟩
  | unary op operand pos => exact ⟨hx, hnone⟩
  | binaryLeft op left right pos => exact List.forall_mem_append.1 hx
  | binaryRight o op right pos => exact ⟨htaken _ List.mem_cons_self, hnone⟩
  | logicalLeft op left right pos => exact List.forall_mem_append.1 hx
  | logicalRight o op right => exact ⟨htaken _ List.mem_cons_self, hnone⟩
  | callee callee args pos =>
    rw [Control.words, Expr.names, Expr.namesEach_eq_flatMap] at hx
    exact List.forall_mem_append.1 hx
  | firstArgument o e after pos => exact List.forall_mem_append.1 (htaken _ List.mem_cons_self)
  | nextArgument o callee before e after pos =>
    exact List.forall_mem_append.1 (htaken _ List.mem_cons_self)
  | discard e => exact ⟨hx, hnone⟩
  | print e pos => exact ⟨hx, hnone⟩
  | define name e pos =>
    obtain ⟨hname, hinitial⟩ := List.forall_mem_cons.1 hx
    rw [Option.toList_some, List.flatMap_singleton] at hinitial
    exact ⟨hinitial, List.forall_mem_singleton.2 hname⟩
  | branch condition whenTrue whenFalse pos =>
    rw [Control.words, Stmt.names, Stmt.namesElse_eq_flatMap] at hx
    exact List.forall_mem_append.1 hx
  | loop condition body increment pos => exact ⟨(List.forall_mem_append.1 hx).1, hx⟩
  | increment o condition body e =>
    have hloop := htaken _ List.mem_cons_self
    have hincrement := (List.forall_mem_append.1 (List.forall_mem_append.1 hloop).2).2
    rw [Option.toList_some, List.flatMap_singleton] at hincrement
    exact ⟨hincrement, hloop⟩
  | bodyEnded o condition body =>
    have hloop := htaken _ List.mem_cons_self
    exact ⟨(List.forall_mem_append.1 hloop).1, hloop⟩
  | incremented o condition body increment =>
    have hloop := htaken _ List.mem_cons_self
    exact ⟨(List.forall_mem_append.1 hloop).1, hloop⟩
  | giveBack e pos =>
    rw [Control.words, Stmt.names, Option.toList_some, List.flatMap_singleton] at hx
    exact ⟨hx, hnone⟩

theorem Runs.words {st : Stmt} (h : Runs o p st put) (hp : ∀ w ∈ p.names, W w) :
    (∀ w ∈ st.names, W w) ∧ ∀ q ∈ put, ∀ w ∈ q.names, W w := by
  cases h with
  | whenTrue whenTrue whenFalse => exact ⟨(List.forall_mem_append.1 hp).1, List.forall_mem_nil _⟩
  | whenFalse whenTrue whenFalse =>
    have hfalse := (List.forall_mem_append.1 hp).2
    rw [Option.toList_some, List.flatMap_singleton] at hfalse
    exact ⟨hfalse, List.forall_mem_nil _⟩
  | body condition body increment =>
    have hbody := (List.forall_mem_append.1 (List.forall_mem_append.1 hp).2).1
    exact ⟨hbody, List.forall_mem_singleton.2 hp⟩
  | next st rest =>
    obtain ⟨hfirst, hrest⟩ := List.forall_mem_append.1 hp
    exact ⟨hfirst, List.forall_mem_singleton.2 hrest⟩

theorem Course.words (h : Course s x taken y put) (hx : ∀ w ∈ x.words, W w)
    (htaken : ∀ q ∈ taken, ∀ w ∈ q.names, W w)
    (hheld : ∀ fn : Closure, fn ∈ x.functions ∨ fn ∈ Stack.functions taken →
      ∀ w ∈ fn.decl.names, W w)
    (hopen : s.sink.Open) : (∀ w ∈ y.words, W w) ∧ ∀ q ∈ put, ∀ w ∈ q.names, W w := by
  cases h with
  | group inner pos => exact ⟨hx, List.forall_mem_nil _⟩
  | awaits hawaits =>
    obtain ⟨he, hp⟩ := hawaits.words hx htaken
    exact ⟨he, List.forall_mem_singleton.2 hp⟩
  | runs hruns => exact hruns.words (htaken _ List.mem_cons_self)
  | fails hblames => exact ⟨hblames.words hx htaken hheld hopen, List.forall_mem_nil _⟩
  | block body =>
    rw [Control.words, Stmt.names, Stmt.namesEach_eq_flatMap] at hx
    exact ⟨List.forall_mem_nil _,
      List.forall_mem_cons.2 ⟨hx, List.forall_mem_singleton.2 (List.forall_mem_nil _)⟩⟩
  | @call o p f args pos hsummons harity hroom =>
    have hnames := hheld f hsummons.held
    rw [FunDecl.names_eq, ← List.cons_append] at hnames
    exact ⟨List.forall_mem_nil _, List.forall_mem_cons.2
      ⟨(List.forall_mem_append.1 hnames).2, List.forall_mem_singleton.2 (List.forall_mem_nil _)⟩⟩
  | @badCall o p f args pos d hsummons harity hroom hbind =>
    have hnames := hheld f hsummons.held
    rw [FunDecl.names_eq] at hnames
    have hparams := (List.forall_mem_append.1 (List.forall_mem_cons.1 hnames).2).1
    exact ⟨words_of_bindParams (List.forall_mem_map.1 hparams) hbind,
      List.forall_mem_singleton.2 (List.forall_mem_nil _)⟩
  | unwind d p => exact ⟨hx, List.forall_mem_nil _⟩
  | _ => exact ⟨List.forall_mem_nil _, List.forall_mem_nil _⟩

/-- **One step adds no words**, as long as what it prints is taken. -/
theorem Says.step (h : c.Says W) (htidy : c.session.arena.Tidy) (hopen : c.session.sink.Open) :
    c.step.Says W := by
  obtain ⟨⟨hcontrol, hstack⟩, hfunctions⟩ := h
  constructor
  · obtain ⟨hy, hput⟩ := forall_step hcontrol hstack fun taken y put hcourse htaken hholds =>
      hcourse.words hcontrol htaken (fun fn hfn => hfunctions.held fn (hholds fn hfn)) hopen
    exact ⟨hy, hput⟩
  · refine hfunctions.step htidy ?_
    rintro decl hdecl fn rfl
    rw [hdecl] at hcontrol
    exact hcontrol

/-! ## Whole runs -/

variable {policy : Policy} {sink : Sink} {depth : Nat} {program : Program}

/-- At the start of a program in a new session there are no words but those of the program. -/
theorem says_launch (h : ∀ w ∈ program.flatMap Stmt.names, W w) :
    (launch policy sink depth program).Says W := by
  exact ⟨⟨List.forall_mem_nil _, List.forall_mem_singleton.2 h⟩, all_launch ..⟩

/-- At no moment of a run are there other words. -/
theorem says_after_launch (h : ∀ w ∈ program.flatMap Stmt.names, W w) (hopen : sink.Open)
    (n : Nat) : ((launch policy sink depth program).after n).Says W := by
  induction n with
  | zero => exact says_launch h
  | succ n ih =>
    rw [after_succ_eq_step]
    have htidy := (sound_moment (moment_launch policy sink depth program n)).arena.tidy
    exact ih.step htidy (open_after hopen n)

/-- **The diagnostic of a run names only what the program names**, if the output is taken. -/
theorem words_of_run_launch {steps : Nat} {d : Diagnostic} {t : Session} (hopen : sink.Open)
    (h : (launch policy sink depth program).run steps = some (.error d, t)) :
    ∀ w ∈ d.fault.words, w ∈ program.flatMap Stmt.names := by
  rw [run_eq_after] at h
  rcases ended?_eq_some h with ⟨o, ho, -⟩ | ⟨d', hd, hend⟩
  · cases ho
  · obtain rfl := Except.error.inj hd
    have hsays : ((launch policy sink depth program).after steps).Says
        (· ∈ program.flatMap Stmt.names) := says_after_launch (fun _ hw => hw) hopen steps
    rw [hend] at hsays
    exact hsays.worded.control

end Configuration

/-! ## Texts -/

variable {source : String} {d : Diagnostic}

/-- What is wrong with a text that does not compile is said in words on one line. -/
theorem oneLine_of_compile_error (h : compile source = .error d) :
    ∀ w ∈ d.fault.words, OneLine w := by
  unfold compile at h
  cases htokens : scan source with
  | error d' =>
    rw [htokens] at h
    obtain rfl := Except.error.inj h
    exact oneLine_of_scan_error htokens
  | ok tokens =>
    have hparse := words_of_parse (oneLine_of_scan_ok htokens) (by decide)
    rw [htokens] at h
    rw [show parse tokens = .error d from h] at hparse
    exact hparse

/-- The names in a program that compiles are on one line each. -/
theorem oneLine_of_compile_ok {program : Program} (h : compile source = .ok program) :
    ∀ w ∈ program.flatMap Stmt.names, OneLine w := by
  obtain ⟨tokens, htokens, hprogram⟩ := exists_tokens_of_compile h
  have hparse := words_of_parse (oneLine_of_scan_ok htokens) (by decide)
  rw [hprogram] at hparse
  exact hparse

/-- **The diagnostic about a text is on one line**, whichever stage it comes from, if the output is
taken. -/
theorem oneLine_of_runSource {steps : Nat} {policy : Policy} {sink t : Sink} (hopen : sink.Open)
    (h : runSource steps policy sink source = some (.error d, t)) : OneLine d.display := by
  refine Diagnostic.oneLine_display ?_
  cases hcompile : compile source with
  | error d' =>
    unfold runSource at h
    rw [hcompile] at h
    obtain ⟨hd, -⟩ := Prod.mk.inj (Option.some.inj h)
    obtain rfl := Except.error.inj hd
    exact oneLine_of_compile_error hcompile
  | ok program =>
    rw [Configuration.runSource_eq_launch hcompile] at h
    obtain ⟨⟨r, s⟩, hrun, hend⟩ := Option.map_eq_some_iff.1 h
    obtain ⟨hr, -⟩ := Prod.mk.inj hend
    cases r with
    | ok o => cases hr
    | error d' =>
      obtain rfl := Except.error.inj hr
      have hwords := Configuration.words_of_run_launch hopen hrun
      exact fun w hw => oneLine_of_compile_ok hcompile w (hwords w hw)

end Script
