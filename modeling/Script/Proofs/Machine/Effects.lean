import Script.Machine.Step
import Script.Proofs.Arena.Variables

/-!
# What a step does

A step of the machine does at most one thing to the frames: it sets a variable, makes a function,
enters a scope or leaves one. Every invariant of the frames is shown for these five effects rather
than for every kind of expression and statement.

- `Scope`, `Stack.scopes`: the scopes that remain to be left, innermost first.
- `Configuration.Holds`: the functions in the control and on the stack.
- `Configuration.declares`: the step of a configuration is a declaration.
- `Configuration.Change`: the five effects.
- `Configuration.Effect`, `effect_step`: a step has one of them, and changes no setting.
-/

namespace Script

/-! ## Scopes on the stack -/

/-- A scope that remains to be left: its frame, the frame it was entered from, and the number of
calls that end with it. -/
structure Scope where
  frame : Handle
  caller : Handle
  calls : Nat

/-- The scope that a part of the stack leaves. -/
def Continuation.scope? : Continuation → Option Scope
  | .leaveBlock frame caller => some ⟨frame, caller, 0⟩
  | .leaveCall _ frame caller => some ⟨frame, caller, 1⟩
  | _ => none

/-- The scopes that a stack leaves, innermost first. -/
def Stack.scopes (k : Stack) : List Scope := k.filterMap Continuation.scope?

@[simp] theorem Stack.scopes_cons (p : Continuation) (k : Stack) :
    Stack.scopes (p :: k) = p.scope?.toList ++ Stack.scopes k := by
  unfold Stack.scopes
  cases h : p.scope? <;> simp [h]

@[simp] theorem Stack.functions_cons (p : Continuation) (k : Stack) :
    Stack.functions (p :: k) = p.functions ++ Stack.functions k := rfl

theorem Stack.functions_append (k k' : Stack) :
    Stack.functions (k ++ k') = Stack.functions k ++ Stack.functions k' :=
  List.flatMap_append

/-! ## Functions in hands -/

theorem functions_ofLiteral (l : Literal) : (Value.ofLiteral l).functions = [] := by
  cases l <;> rfl

variable {fn : Closure} {o : Outcome} {v w : Value} {pos : Position} {name : String}

/-- The value of an outcome holds what the outcome holds. -/
theorem Outcome.mem_functions_of_asValue (h : fn ∈ o.asValue.functions) : fn ∈ o.functions := by
  cases o with
  | value v => exact h
  | signal s => cases s <;> exact h

/-- The jump of an outcome holds what the outcome holds. -/
theorem Outcome.mem_functions_of_asSignal (h : fn ∈ o.asSignal.functions) : fn ∈ o.functions := by
  cases o with
  | value v => cases h
  | signal s => exact h

theorem UnaryOp.functions_apply {op : UnaryOp} (h : op.apply v = .ok w) : w.functions = [] := by
  cases op <;> cases v <;> simp only [UnaryOp.apply, Except.ok.injEq, reduceCtorEq] at h <;>
    (subst h; rfl)

theorem BinaryOp.functions_apply {op : BinaryOp} {u : Value} (h : op.apply u v = .ok w) :
    w.functions = [] := by
  cases op <;> cases u <;> cases v <;>
    simp only [BinaryOp.apply, BinaryOp.onNumbers, Except.ok.injEq, reduceCtorEq] at h <;>
    (subst h; rfl)

/-- Two sessions differ at most in their frames, their output and the number of calls. -/
structure Session.SameSettings (s t : Session) : Prop where
  pending : t.pending = s.pending
  host : t.host = s.host
  maxDepth : t.maxDepth = s.maxDepth

theorem Session.SameSettings.trans {s t u : Session} (h : s.SameSettings t)
    (h' : t.SameSettings u) : s.SameSettings u :=
  ⟨h'.pending.trans h.pending, h'.host.trans h.host, h'.maxDepth.trans h.maxDepth⟩

theorem Session.SameSettings.held {s t : Session} (h : s.SameSettings t) : t.held = s.held := by
  unfold Session.held
  rw [h.pending, h.host]

namespace Configuration

/-- A function is held by the control or the stack. -/
def Holds (c : Configuration) (fn : Closure) : Prop :=
  fn ∈ c.control.functions ∨ fn ∈ Stack.functions c.stack

/-- The step of a configuration declares a variable or a function. -/
def declares (c : Configuration) : Bool :=
  match c.control, c.stack with
  | .exec (.declare _ none _), _ => true
  | .exec (.function _), _ => true
  | .done _, .define _ _ :: _ => true
  | _, _ => false

/-- The stack `k` leaves the same scopes as that of `c`, and holds no other functions. -/
structure Rests (c : Configuration) (k : Stack) : Prop where
  functions : ∀ fn ∈ Stack.functions k, c.Holds fn
  scopes : Stack.scopes k = Stack.scopes c.stack

theorem rests_self (c : Configuration) : c.Rests c.stack := ⟨fun _ h => .inr h, rfl⟩

theorem rests_cons {c : Configuration} {p : Continuation} {k : Stack} (hstack : c.stack = p :: k)
    (hscope : p.scope? = none) : c.Rests k := by
  refine ⟨fun fn hfn => .inr ?_, ?_⟩
  · rw [hstack, Stack.functions_cons, List.mem_append]
    exact .inr hfn
  · rw [hstack, Stack.scopes_cons, hscope]
    rfl

variable {c : Configuration} {k : Stack} {p : Continuation} {control : Control} {args : List Value}

/-- A part that leaves no scope, and holds functions that are held already, can be put on top. -/
theorem Rests.push (h : c.Rests k) (hscope : p.scope? = none)
    (hp : ∀ fn ∈ p.functions, c.Holds fn) : c.Rests (p :: k) := by
  refine ⟨fun fn hfn => ?_, ?_⟩
  · rw [Stack.functions_cons, List.mem_append] at hfn
    exact hfn.elim (hp fn) (h.functions fn)
  · rw [Stack.scopes_cons, hscope]
    exact h.scopes

/-- Behind a control that holds nothing, the rest of the stack holds no function but those held
before. -/
theorem Rests.holds (h : c.Rests k) {t : Session} (hcontrol : control.functions = [])
    (hfn : Holds ⟨control, k, t⟩ fn) : c.Holds fn := by
  rcases hfn with hfn | hfn
  · rw [show Control.functions _ = [] from hcontrol] at hfn
    cases hfn
  · exact h.functions fn hfn

/-! ## Effects -/

/-- What a step from `c` to `d` does to the frames and to the scopes. -/
inductive Change (c d : Configuration) : Prop
  /-- The frames stay as they are. Functions may be read from variables. -/
  | none (arena : d.session.arena = c.session.arena) (depth : d.session.depth = c.session.depth)
    (scopes : Stack.scopes d.stack = Stack.scopes c.stack)
    (holds : ∀ fn, d.Holds fn → c.Holds fn ∨ c.session.arena.Binds fn)
  /-- A variable is set: one that is there, or one that is declared in the innermost frame. -/
  | put (x : Handle) (name : String) (v : Value)
    (arena : d.session.arena = c.session.arena.put x name v)
    (value : ∀ fn ∈ v.functions, c.Holds fn) (depth : d.session.depth = c.session.depth)
    (scopes : Stack.scopes d.stack = Stack.scopes c.stack)
    (holds : ∀ fn, d.Holds fn → c.Holds fn)
    (target : c.session.arena.owner? name = some x ∨
      c.declares = true ∧ x = c.session.arena.current)
  /-- A function is made from its declaration and given a name, if the name is free. -/
  | make (decl : FunDecl)
    (arena : d.session.arena = ((c.session.arena.closure decl).1.define decl.name
      (.function (c.session.arena.closure decl).2)).1)
    (depth : d.session.depth = c.session.depth)
    (scopes : Stack.scopes d.stack = Stack.scopes c.stack)
    (holds : ∀ fn, d.Holds fn → c.Holds fn) (declared : c.control = .exec (.function decl))
  /-- A scope is entered, and parameters are bound in it. -/
  | enter (parent : Handle) (params : List Param) (args : List Value) (calls : Nat)
    (within : parent = c.session.arena.current ∨ ∃ fn, c.Holds fn ∧ parent = fn.captured)
    (arena : d.session.arena = (bindParams ((c.session.arena.push parent).1.enter
      (c.session.arena.push parent).2) params args).1)
    (values : ∀ v ∈ args, ∀ fn ∈ v.functions, c.Holds fn)
    (depth : d.session.depth = c.session.depth + calls)
    (scopes : Stack.scopes d.stack = ⟨(c.session.arena.push parent).2, c.session.arena.current,
      calls⟩ :: Stack.scopes c.stack)
    (holds : ∀ fn, d.Holds fn → c.Holds fn)
  /-- A scope is left. Everything held outside the frames is made known. -/
  | leave (frame caller : Handle) (calls : Nat) (outside : List Closure)
    (arena : d.session.arena = leaveFrame c.session.arena frame caller outside)
    (told : ∀ fn, d.Holds fn ∨ fn ∈ c.session.held → fn ∈ outside)
    (depth : d.session.depth = c.session.depth - calls)
    (scopes : Stack.scopes c.stack = ⟨frame, caller, calls⟩ :: Stack.scopes d.stack)
    (holds : ∀ fn, d.Holds fn → c.Holds fn)

/-- A step from `c` to `d` makes one change, and leaves the settings alone. -/
structure Effect (c d : Configuration) : Prop where
  settings : c.session.SameSettings d.session
  change : c.Change d

/-- The control and the stack change, and nothing else. -/
theorem Rests.move (h : c.Rests k)
    (hcontrol : ∀ fn ∈ control.functions, c.Holds fn ∨ c.session.arena.Binds fn) :
    c.Effect ⟨control, k, c.session⟩ := by
  refine ⟨⟨rfl, rfl, rfl⟩, .none rfl rfl h.scopes ?_⟩
  rintro fn (hfn | hfn)
  · exact hcontrol fn hfn
  · exact .inl (h.functions fn hfn)

/-- A step to a control that holds nothing. -/
theorem Rests.go (h : c.Rests k) (hcontrol : control.functions = []) :
    c.Effect ⟨control, k, c.session⟩ := by
  refine h.move fun fn hfn => ?_
  rw [hcontrol] at hfn
  cases hfn

/-- A step that waits for something with a part on top of the stack. -/
theorem Rests.await (h : c.Rests k) (hscope : p.scope? = none)
    (hp : ∀ fn ∈ p.functions, c.Holds fn) (hcontrol : control.functions = []) :
    c.Effect ⟨control, p :: k, c.session⟩ :=
  (h.push hscope hp).go hcontrol

theorem effect_yield {r : Except Fault Value} (h : c.Rests k)
    (hr : ∀ v, r = .ok v → v.functions = []) : c.Effect (yield r pos k c.session) := by
  cases r with
  | ok v => exact h.go (hr v rfl)
  | error fault => exact h.go rfl

theorem effect_defineAt (h : c.Rests k) (hv : ∀ fn ∈ v.functions, c.Holds fn)
    (hdeclares : c.declares = true) : c.Effect (defineAt name v pos k c.session) := by
  unfold defineAt
  rcases Arena.define_cases c.session.arena name v with ⟨fault, hd⟩ | ⟨-, hd⟩
  · rw [hd]
    exact h.go rfl
  · rw [hd]
    refine ⟨⟨rfl, rfl, rfl⟩, .put _ name v rfl hv rfl h.scopes ?_ (.inr ⟨hdeclares, rfl⟩)⟩
    intro fn hfn
    exact h.holds rfl hfn

theorem effect_assignAt (h : c.Rests k) (hv : ∀ fn ∈ v.functions, c.Holds fn) :
    c.Effect (assignAt name v pos k c.session) := by
  unfold assignAt
  rcases Arena.assign_cases c.session.arena name v with
    ⟨fault, hd⟩ | ⟨x, howner, hd⟩
  · rw [hd]
    exact h.go rfl
  · rw [hd]
    refine ⟨⟨rfl, rfl, rfl⟩, .put x name v rfl hv rfl h.scopes ?_ (.inl howner)⟩
    rintro fn (hfn | hfn)
    · exact hv fn hfn
    · exact h.functions fn hfn

theorem effect_printAt (h : c.Rests k) : c.Effect (printAt v pos k c.session) := by
  unfold printAt
  rcases c.session.sink.writeLine v.text with ⟨sink, refused⟩
  -- the sink is no part of the frames, nor of what is held
  cases refused with
  | none =>
    refine ⟨⟨rfl, rfl, rfl⟩, .none rfl rfl h.scopes ?_⟩
    intro fn hfn
    exact .inl (h.holds rfl hfn)
  | some reason =>
    refine ⟨⟨rfl, rfl, rfl⟩, .none rfl rfl h.scopes ?_⟩
    intro fn hfn
    exact .inl (h.holds rfl hfn)

theorem effect_call {callee : Value} (h : c.Rests k)
    (hcallee : ∀ fn ∈ callee.functions, c.Holds fn)
    (hargs : ∀ v ∈ args, ∀ fn ∈ v.functions, c.Holds fn) :
    c.Effect (call callee args pos k c.session) := by
  cases callee with
  | function f =>
    have hf : c.Holds f := hcallee f List.mem_cons_self
    unfold call
    simp only
    split
    · exact h.go rfl
    split
    · exact h.go rfl
    have hstack : ∀ fn ∈ f :: Stack.functions k, c.Holds fn :=
      List.forall_mem_cons.2 ⟨hf, h.functions⟩
    have hscopes : Stack.scopes (.leaveCall f (c.session.arena.push f.captured).2
        c.session.arena.current :: k) = ⟨(c.session.arena.push f.captured).2,
          c.session.arena.current, 1⟩ :: Stack.scopes c.stack := by
      rw [Stack.scopes_cons, h.scopes]
      rfl
    have hwithin : f.captured = c.session.arena.current ∨
        ∃ fn, c.Holds fn ∧ f.captured = fn.captured := .inr ⟨f, hf, rfl⟩
    -- the scope is entered in any case: also a failing parameter is defined in it
    split
    · refine ⟨⟨rfl, rfl, rfl⟩, .enter f.captured f.decl.params args 1 hwithin rfl hargs rfl hscopes
        ?_⟩
      rintro fn (hfn | hfn)
      · cases hfn
      · exact hstack fn hfn
    · refine ⟨⟨rfl, rfl, rfl⟩, .enter f.captured f.decl.params args 1 hwithin rfl hargs rfl hscopes
        ?_⟩
      rintro fn (hfn | hfn)
      · cases hfn
      · exact hstack fn hfn
  | number x => exact h.go rfl
  | string s => exact h.go rfl
  | bool b => exact h.go rfl
  | nil => exact h.go rfl

theorem effect_nextArgument {callee : Value} {before : List Value} {after : List Expr}
    (h : c.Rests k) (hcallee : ∀ fn ∈ callee.functions, c.Holds fn)
    (hbefore : ∀ v ∈ before, ∀ fn ∈ v.functions, c.Holds fn) :
    c.Effect (nextArgument callee before after pos k c.session) := by
  cases after with
  | cons e after =>
    refine (h.push rfl fun fn hfn => ?_).go rfl
    rcases List.mem_append.1 hfn with hfn | hfn
    · exact hcallee fn hfn
    · obtain ⟨v, hv, hfn⟩ := List.mem_flatMap.1 hfn
      exact hbefore v hv fn hfn
  | nil => exact effect_call h hcallee fun v hv => hbefore v (List.mem_reverse.1 hv)

/-! ## Every step has an effect -/

variable {s : Session}

theorem effect_evaluate (e : Expr) (k : Stack) (s : Session) :
    Effect ⟨.eval e, k, s⟩ (evaluate e k s) := by
  have h := rests_self ⟨.eval e, k, s⟩
  have hnone : ∀ fn ∈ ([] : List Closure), Holds ⟨.eval e, k, s⟩ fn := fun fn hfn => nomatch hfn
  cases e with
  | literal l pos => exact h.go (functions_ofLiteral l)
  | group inner pos => exact h.go rfl
  | ident name pos =>
    unfold evaluate
    simp only
    cases hget : s.arena.get? name with
    | none => exact h.go rfl
    | some v => exact h.move fun fn hfn => .inr (Arena.binds_of_get? hget hfn)
  | assign name value pos => exact h.await rfl hnone rfl
  | unary op operand pos => exact h.await rfl hnone rfl
  | binary op left right pos => exact h.await rfl hnone rfl
  | logical op left right pos => exact h.await rfl hnone rfl
  | call callee args pos => exact h.await rfl hnone rfl

theorem effect_execute (st : Stmt) (k : Stack) (s : Session) :
    Effect ⟨.exec st, k, s⟩ (execute st k s) := by
  have h := rests_self ⟨.exec st, k, s⟩
  have hnone : ∀ fn ∈ ([] : List Closure), Holds ⟨.exec st, k, s⟩ fn := fun fn hfn => nomatch hfn
  have hstack : ∀ fn, fn ∈ ([] : List Closure) ∨ fn ∈ Stack.functions k →
      Holds ⟨.exec st, k, s⟩ fn := fun fn hfn => hfn.elim (hnone fn) .inr
  cases st with
  | expression e => exact h.await rfl hnone rfl
  | print e pos => exact h.await rfl hnone rfl
  | declare name initial pos =>
    cases initial with
    | none => exact effect_defineAt h hnone rfl
    | some e => exact h.await rfl hnone rfl
  | block body =>
    exact ⟨⟨rfl, rfl, rfl⟩,
      .enter s.arena.current [] [] 0 (.inl rfl) rfl (fun v hv => nomatch hv) rfl rfl hstack⟩
  | branch condition whenTrue whenFalse pos => exact h.await rfl hnone rfl
  | loop condition body increment pos => exact h.await rfl hnone rfl
  | exitLoop pos => exact h.go rfl
  | nextIteration pos => exact h.go rfl
  | function decl =>
    -- whether or not the name is free, the function is made and pins its scopes
    have harena : (execute (.function decl) k s).session.arena =
        ((s.arena.closure decl).1.define decl.name (.function (s.arena.closure decl).2)).1 := by
      simp only [execute, defineAt]
      split <;> simp_all
    have hrest : s.SameSettings (execute (.function decl) k s).session ∧
        (execute (.function decl) k s).session.depth = s.depth ∧
        (execute (.function decl) k s).stack = k ∧
        (execute (.function decl) k s).control.functions = [] := by
      simp only [execute, defineAt]
      split <;> exact ⟨⟨rfl, rfl, rfl⟩, rfl, rfl, rfl⟩
    obtain ⟨hsettings, hdepth, hk, hcontrol⟩ := hrest
    refine ⟨hsettings, .make decl harena hdepth (by rw [hk]) (fun fn hfn => hstack fn ?_) rfl⟩
    rwa [Holds, hk, hcontrol] at hfn
  | giveBack value pos =>
    cases value with
    | none => exact h.go rfl
    | some e => exact h.await rfl hnone rfl

/-- Leaving a scope, whether with an outcome or with a failure. -/
theorem effect_leave {frame caller : Handle} {calls : Nat} {control' : Control} {t : Session}
    {outside : List Closure}
    (hsettings : s.SameSettings t) (hscope : p.scope? = some ⟨frame, caller, calls⟩)
    (harena : t.arena = leaveFrame s.arena frame caller outside)
    (hdepth : t.depth = s.depth - calls)
    (hcontrol : ∀ fn ∈ control'.functions, fn ∈ control.functions)
    (htold : ∀ fn, fn ∈ control'.functions ∨ fn ∈ Stack.functions k ∨ fn ∈ s.held → fn ∈ outside) :
    Effect ⟨control, p :: k, s⟩ ⟨control', k, t⟩ := by
  refine ⟨hsettings, .leave frame caller calls outside harena ?_ hdepth ?_ ?_⟩
  · intro fn hfn
    rw [Holds, or_assoc] at hfn
    exact htold fn hfn
  · rw [Stack.scopes_cons, hscope]
    rfl
  · rintro fn (hfn | hfn)
    · exact .inl (hcontrol fn hfn)
    · exact .inr (by rw [Stack.functions_cons, List.mem_append]; exact .inr hfn)

theorem effect_resume (p : Continuation) (o : Outcome) (k : Stack) (s : Session) :
    Effect ⟨.done o, p :: k, s⟩ (resume p o k s) := by
  have hvalue : ∀ fn ∈ o.asValue.functions, Holds ⟨.done o, p :: k, s⟩ fn := fun fn hfn =>
    .inl (Outcome.mem_functions_of_asValue hfn)
  have hnone : ∀ fn ∈ ([] : List Closure), Holds ⟨.done o, p :: k, s⟩ fn :=
    fun fn hfn => nomatch hfn
  have hp : ∀ fn ∈ p.functions, Holds ⟨.done o, p :: k, s⟩ fn := fun fn hfn =>
    .inr (by rw [Stack.functions_cons, List.mem_append]; exact .inl hfn)
  have hrests := rests_cons (c := ⟨.done o, p :: k, s⟩) (p := p) rfl
  cases p with
  | assign name pos => exact effect_assignAt (hrests rfl) hvalue
  | unary op pos => exact effect_yield (hrests rfl) fun v => UnaryOp.functions_apply
  | binaryLeft op right pos => exact (hrests rfl).await rfl hvalue rfl
  | binaryRight op left pos => exact effect_yield (hrests rfl) fun v => BinaryOp.functions_apply
  | logicalLeft op right =>
    unfold resume
    simp only
    split
    · exact (hrests rfl).move fun fn hfn => .inl (hvalue fn hfn)
    · exact (hrests rfl).await rfl hvalue rfl
  | logicalRight left => exact (hrests rfl).move fun fn hfn => .inl (.inl hfn)
  | callee args pos =>
    exact effect_nextArgument (hrests rfl) hvalue fun v hv => nomatch hv
  | argument callee before after pos =>
    refine effect_nextArgument (hrests rfl) (fun fn hfn => hp fn (List.mem_append_left _ hfn)) ?_
    intro v hv fn hfn
    rcases List.mem_cons.1 hv with rfl | hv
    · exact hvalue fn hfn
    · exact hp fn (List.mem_append_right _ (List.mem_flatMap.2 ⟨v, hv, hfn⟩))
  | discard => exact (hrests rfl).go rfl
  | print pos => exact effect_printAt (hrests rfl)
  | define name pos => exact effect_defineAt (hrests rfl) hvalue rfl
  | branch whenTrue whenFalse =>
    unfold resume
    simp only
    split
    · exact (hrests rfl).go rfl
    · split <;> exact (hrests rfl).go rfl
  | loopTest condition body increment =>
    unfold resume
    simp only
    split
    · exact (hrests rfl).await rfl hnone rfl
    · exact (hrests rfl).go rfl
  | loopBody condition body increment =>
    unfold resume
    simp only
    split
    · exact (hrests rfl).go rfl
    · rename_i v hv
      refine (hrests rfl).move fun fn hfn => .inl (.inl (Outcome.mem_functions_of_asSignal ?_))
      rw [hv]
      exact hfn
    · split <;> exact (hrests rfl).await rfl hnone rfl
  | loopNext condition body increment => exact (hrests rfl).await rfl hnone rfl
  | giveBack => exact (hrests rfl).move fun fn hfn => .inl (hvalue fn hfn)
  | sequence rest =>
    unfold resume
    simp only
    split
    · exact (hrests rfl).await rfl hnone rfl
    · exact (hrests rfl).move fun fn hfn => .inl (.inl (Outcome.mem_functions_of_asSignal hfn))
  | leaveBlock frame caller =>
    refine effect_leave ⟨rfl, rfl, rfl⟩ rfl rfl rfl (fun fn hfn => hfn) fun fn hfn => ?_
    rw [List.mem_append, List.mem_append]
    exact hfn
  | leaveCall callee frame caller =>
    refine effect_leave ⟨rfl, rfl, rfl⟩ rfl rfl rfl (fun fn => Outcome.mem_functions_of_asValue)
      fun fn hfn => ?_
    simp only [List.mem_append, List.mem_cons]
    exact hfn.imp Outcome.mem_functions_of_asValue .inr

theorem effect_unwind (p : Continuation) (d : Diagnostic) (k : Stack) (s : Session) :
    Effect ⟨.failed d, p :: k, s⟩ (unwind p d k s) := by
  have hrests := rests_cons (c := ⟨.failed d, p :: k, s⟩) (p := p) rfl
  cases p with
  | leaveBlock frame caller =>
    refine effect_leave ⟨rfl, rfl, rfl⟩ rfl rfl rfl (fun fn hfn => hfn) fun fn hfn => ?_
    rw [List.mem_append]
    exact hfn.resolve_left fun hfn => nomatch hfn
  | leaveCall callee frame caller =>
    refine effect_leave ⟨rfl, rfl, rfl⟩ rfl rfl rfl (fun fn hfn => hfn) fun fn hfn => ?_
    simp only [List.mem_append, List.mem_cons]
    exact .inr (hfn.resolve_left fun hfn => nomatch hfn)
  | _ => exact (hrests rfl).go rfl

/-- **Every step has one of the five effects**, and changes no setting. -/
theorem effect_step (c : Configuration) : c.Effect c.step := by
  obtain ⟨control, k, s⟩ := c
  cases control with
  | eval e => exact effect_evaluate e k s
  | exec st => exact effect_execute st k s
  | done o =>
    cases k with
    | nil => exact (rests_self ⟨.done o, [], s⟩).move fun fn hfn => .inl (.inl hfn)
    | cons p k => exact effect_resume p o k s
  | failed d =>
    cases k with
    | nil => exact (rests_self ⟨.failed d, [], s⟩).go rfl
    | cons p k => exact effect_unwind p d k s

end Configuration

end Script
