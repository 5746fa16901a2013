import Script.Proofs.Arena.Recasting
import Script.Proofs.Machine.Effects
import Script.Proofs.Session.Requests

/-!
# The machine does not compute with what it carries along

Positions pass from nodes of the program to diagnostics, and the rule for defining a name twice is
asked where a name is defined. A run with other positions, or with the permissive rule, takes the
same steps, as long as the strict rule has not refused anything.

- `Outcome.recast`, `Control.recast`, `Continuation.recast`, `Configuration.recast`: a machine with
  its positions moved and its rule changed.
- `Configuration.Refused`: something has failed because a name was defined twice.
- `Session.positions`: the positions that a session carries.
- `step_recast`: the change commutes with a step; `after_recast` and `run_recast` follow it through
  whole runs.
- `mem_of_run`: positions do not come from anywhere else.
-/

namespace Script

/-! ## Machines at other positions -/

/-- The jump with its value at other positions. -/
def Signal.recast (r : Recast) : Signal → Signal
  | .returned v => .returned (v.recast r)
  | signal => signal

/-- The outcome with its value at other positions. -/
def Outcome.recast (r : Recast) : Outcome → Outcome
  | .value v => .value (v.recast r)
  | .signal s => .signal (s.recast r)

/-- The control at other positions. -/
def Control.recast (r : Recast) : Control → Control
  | .eval e => .eval (e.moved r.move)
  | .exec st => .exec (st.moved r.move)
  | .done o => .done (o.recast r)
  | .failed d => .failed (d.moved r.move)

/-- A part of the stack at other positions. -/
def Continuation.recast (r : Recast) : Continuation → Continuation
  | .assign name pos => .assign name (r.move pos)
  | .unary op pos => .unary op (r.move pos)
  | .binaryLeft op right pos => .binaryLeft op (right.moved r.move) (r.move pos)
  | .binaryRight op left pos => .binaryRight op (left.recast r) (r.move pos)
  | .logicalLeft op right => .logicalLeft op (right.moved r.move)
  | .logicalRight left => .logicalRight (left.recast r)
  | .callee args pos => .callee (args.map (Expr.moved r.move)) (r.move pos)
  | .argument f before after pos =>
    .argument (f.recast r) (before.map (Value.recast r)) (after.map (Expr.moved r.move))
      (r.move pos)
  | .discard => .discard
  | .print pos => .print (r.move pos)
  | .define name pos => .define name (r.move pos)
  | .branch whenTrue whenFalse =>
    .branch (whenTrue.moved r.move) (whenFalse.map (Stmt.moved r.move))
  | .loopTest condition body increment =>
    .loopTest (condition.moved r.move) (body.moved r.move) (increment.map (Expr.moved r.move))
  | .loopBody condition body increment =>
    .loopBody (condition.moved r.move) (body.moved r.move) (increment.map (Expr.moved r.move))
  | .loopNext condition body increment =>
    .loopNext (condition.moved r.move) (body.moved r.move) (increment.map (Expr.moved r.move))
  | .giveBack => .giveBack
  | .sequence rest => .sequence (rest.map (Stmt.moved r.move))
  | .leaveBlock frame caller => .leaveBlock frame caller
  | .leaveCall f frame caller => .leaveCall (f.recast r) frame caller

/-- The stack at other positions. -/
def Stack.recast (r : Recast) (k : Stack) : Stack := k.map (Continuation.recast r)

/-- The session with its functions at other positions, and with the rule after the change. -/
def Session.recast (r : Recast) (s : Session) : Session :=
  { s with
    arena := s.arena.recast r
    pending := s.pending.recast r
    host := s.host.map (Closure.recast r) }

/-- The configuration at other positions, and with the rule after the change. -/
def Configuration.recast (r : Recast) (c : Configuration) : Configuration :=
  ⟨c.control.recast r, Stack.recast r c.stack, c.session.recast r⟩

variable {r : Recast} {name : String} {pos : Position} {v : Value} {o : Outcome}
  {p : Continuation} {k : Stack} {s : Session}

/-! ## No change, and two changes -/

section Laws

variable {μ ν : Position → Position}

theorem Signal.recast_id (s : Signal) : s.recast (.moving id) = s := by
  cases s with
  | returned v => exact congrArg Signal.returned (Value.recast_id v)
  | _ => rfl

theorem Outcome.recast_id (o : Outcome) : o.recast (.moving id) = o := by
  cases o with
  | value v => exact congrArg Outcome.value (Value.recast_id v)
  | signal s => exact congrArg Outcome.signal (Signal.recast_id s)

theorem Control.recast_id (c : Control) : c.recast (.moving id) = c := by
  cases c with
  | eval e => exact congrArg Control.eval (Expr.moved_id e)
  | exec st => exact congrArg Control.exec (Stmt.moved_id st)
  | done o => exact congrArg Control.done (Outcome.recast_id o)
  | failed d => rfl

theorem Continuation.recast_id (p : Continuation) : p.recast (.moving id) = p := by
  have hvalue : Value.recast (.moving id) = id := funext Value.recast_id
  have hexpr : Expr.moved id = id := funext Expr.moved_id
  have hstmt : Stmt.moved id = id := funext Stmt.moved_id
  cases p <;>
    simp only [recast, Recast.move_moving, hvalue, hexpr, hstmt, Closure.recast_id, id_eq,
      List.map_id, Option.map_id]

theorem Stack.recast_id (k : Stack) : Stack.recast (.moving id) k = k := by
  have hcontinuation : Continuation.recast (.moving id) = id := funext Continuation.recast_id
  rw [Stack.recast, hcontinuation, List.map_id]

theorem Session.recast_id (s : Session) : s.recast (.moving id) = s := by
  have hclosure : Closure.recast (.moving id) = id := funext Closure.recast_id
  simp only [recast, Arena.recast_id, Signal.recast_id, hclosure, List.map_id]

theorem Signal.recast_recast (s : Signal) :
    (s.recast (.moving μ)).recast (.moving ν) = s.recast (.moving (ν ∘ μ)) := by
  cases s with
  | returned v => exact congrArg Signal.returned (Value.recast_recast v)
  | _ => rfl

theorem Session.recast_recast (s : Session) :
    (s.recast (.moving μ)).recast (.moving ν) = s.recast (.moving (ν ∘ μ)) := by
  simp only [recast, Arena.recast_recast, Signal.recast_recast, List.map_map, Function.comp_def,
    Closure.recast_recast]

end Laws

/-! ## What the machine reads off values -/

@[simp] theorem Signal.functions_recast (s : Signal) :
    (s.recast r).functions = s.functions.map (Closure.recast r) := by
  cases s with
  | returned v => exact Value.functions_recast v
  | _ => rfl

@[simp] theorem Outcome.functions_recast (o : Outcome) :
    (o.recast r).functions = o.functions.map (Closure.recast r) := by
  cases o with
  | value v => exact Value.functions_recast v
  | signal s => exact Signal.functions_recast s

@[simp] theorem Outcome.asValue_recast (o : Outcome) :
    (o.recast r).asValue = o.asValue.recast r := by
  cases o with
  | value v => rfl
  | signal s => cases s <;> rfl

@[simp] theorem Outcome.asSignal_recast (o : Outcome) :
    (o.recast r).asSignal = o.asSignal.recast r := by
  cases o <;> rfl

theorem Value.recast_of_functions (h : v.functions = []) : v.recast r = v := by
  cases v with
  | function f => cases h
  | _ => rfl

/-- No operator sees positions. -/
@[simp] theorem UnaryOp.apply_recast (op : UnaryOp) (v : Value) :
    op.apply (v.recast r) = op.apply v := by
  cases op <;> cases v <;> rfl

@[simp] theorem BinaryOp.apply_recast (op : BinaryOp) (v w : Value) :
    op.apply (v.recast r) (w.recast r) = op.apply v w := by
  cases op <;> cases v <;> cases w <;> rfl

@[simp] theorem LogicalOp.decides_recast (op : LogicalOp) (v : Value) :
    op.decides (v.recast r) = op.decides v := by
  cases op <;> simp [decides]

theorem functions_map_recast (vs : List Value) :
    (vs.map (Value.recast r)).flatMap Value.functions =
      (vs.flatMap Value.functions).map (Closure.recast r) := by
  simp only [List.flatMap_map, Value.functions_recast, List.map_flatMap]

@[simp] theorem Continuation.functions_recast (p : Continuation) :
    (p.recast r).functions = p.functions.map (Closure.recast r) := by
  cases p with
  | binaryRight op left pos => exact Value.functions_recast left
  | logicalRight left => exact Value.functions_recast left
  | argument f before after pos =>
    simp only [recast, functions, Value.functions_recast, functions_map_recast, List.map_append]
  | _ => rfl

@[simp] theorem Stack.functions_recast (k : Stack) :
    Stack.functions (Stack.recast r k) = k.functions.map (Closure.recast r) := by
  unfold Stack.functions Stack.recast
  simp only [List.flatMap_map, Continuation.functions_recast, List.map_flatMap]

@[simp] theorem Session.held_recast (s : Session) :
    (s.recast r).held = s.held.map (Closure.recast r) := by
  unfold Session.held Session.recast
  simp only [Signal.functions_recast, List.map_append]

/-! ## The positions that a session carries -/

/-- The positions in the declarations of all functions that are made, bound or held. -/
def Session.positions (s : Session) : List Position :=
  (s.arena.known ++ (s.arena.boundFunctions ++ s.held)).flatMap (·.decl.positions)

theorem Session.positions_recast (μ : Position → Position) (s : Session) :
    (s.recast (.moving μ)).positions = s.positions.map μ := by
  have harena : (s.recast (.moving μ)).arena = s.arena.recast (.moving μ) := rfl
  have hknown : (s.arena.recast (.moving μ)).known =
      s.arena.known.map (Closure.recast (.moving μ)) := rfl
  have hdecl (f : Closure) :
      (f.recast (.moving μ)).decl.positions = f.decl.positions.map μ :=
    FunDecl.positions_moved f.decl
  unfold positions
  rw [harena, hknown, Arena.boundFunctions_recast, held_recast, ← List.map_append,
    ← List.map_append, List.flatMap_map, List.map_flatMap]
  simp only [hdecl]

/-- A session does not change when none of its positions is moved. -/
theorem Session.recast_congr {μ ν : Position → Position} (h : ∀ p ∈ s.positions, μ p = ν p) :
    s.recast (.moving μ) = s.recast (.moving ν) := by
  have hfunctions : ∀ f ∈ s.arena.known ++ (s.arena.boundFunctions ++ s.held),
      ∀ p ∈ f.decl.positions, μ p = ν p := fun f hf p hp =>
    h p (List.mem_flatMap.2 ⟨f, hf, hp⟩)
  have harena : s.arena.recast (.moving μ) = s.arena.recast (.moving ν) := by
    refine Arena.recast_congr fun f hf => hfunctions f ?_
    rw [← List.append_assoc]
    exact List.mem_append_left _ hf
  have hheld : ∀ f ∈ s.pending.functions ++ s.host, ∀ p ∈ f.decl.positions, μ p = ν p := fun f hf =>
    hfunctions f (List.mem_append_right _ (List.mem_append_right _ hf))
  have hpending : s.pending.recast (.moving μ) = s.pending.recast (.moving ν) := by
    cases hp : s.pending with
    | returned v =>
      refine congrArg Signal.returned (Value.recast_congr fun f hf => hheld f ?_)
      rw [hp]
      exact List.mem_append_left _ hf
    | _ => rfl
  have hhost : s.host.map (Closure.recast (.moving μ)) = s.host.map (Closure.recast (.moving ν)) :=
    List.map_congr_left fun f hf => Closure.recast_congr (hheld f (List.mem_append_right _ hf))
  simp only [recast, harena, hpending, hhost]

namespace Configuration

/-- Something has failed because a name was defined twice. -/
def Refused (c : Configuration) : Prop :=
  ∃ name pos, c.control = .failed ⟨.redefined name, pos⟩

/-! ## The parts of a step -/

theorem leaveFrame_recast (a : Arena) (frame caller : Handle) (outside : List Closure) :
    leaveFrame (a.recast r) frame caller (outside.map (Closure.recast r)) =
      (leaveFrame a frame caller outside).recast r :=
  Arena.release_recast (a.enter caller) frame outside

theorem yield_recast {e : Except Fault Value} (h : ∀ v, e = .ok v → v.functions = []) :
    yield e (r.move pos) (Stack.recast r k) (s.recast r) = (yield e pos k s).recast r := by
  cases e with
  | ok v =>
    have hv : v.recast r = v := Value.recast_of_functions (h v rfl)
    simp only [yield, recast, Control.recast, Outcome.recast, hv]
  | error fault => rfl

theorem defineAt_recast (h : r.permits = true → ¬ (defineAt name v pos k s).Refused) :
    defineAt name (v.recast r) (r.move pos) (Stack.recast r k) (s.recast r) =
      (defineAt name v pos k s).recast r := by
  have hdefine := Arena.define_recast (r := r) s.arena name v fun hpermits hfault => by
    refine h hpermits ⟨name, pos, ?_⟩
    unfold defineAt
    rcases hd : s.arena.define name v with ⟨a, fault⟩
    rw [hd] at hfault
    simp only at hfault
    subst hfault
    rfl
  have harena : (s.recast r).arena = s.arena.recast r := rfl
  unfold defineAt
  rw [harena, hdefine]
  rcases s.arena.define name v with ⟨a, fault⟩
  cases fault <;> rfl

theorem assignAt_recast :
    assignAt name (v.recast r) (r.move pos) (Stack.recast r k) (s.recast r) =
      (assignAt name v pos k s).recast r := by
  have harena : (s.recast r).arena = s.arena.recast r := rfl
  unfold assignAt
  rw [harena, Arena.assign_recast]
  rcases s.arena.assign name v with ⟨a, fault⟩
  cases fault <;> rfl

theorem printAt_recast :
    printAt (v.recast r) (r.move pos) (Stack.recast r k) (s.recast r) =
      (printAt v pos k s).recast r := by
  have hsink : (s.recast r).sink = s.sink := rfl
  unfold printAt
  rw [hsink, Value.text_recast]
  rcases s.sink.writeLine v.text with ⟨sink, refused⟩
  cases refused <;> rfl

theorem enterBlock_recast (body : List Stmt) :
    enterBlock (body.map (Stmt.moved r.move)) (Stack.recast r k) (s.recast r) =
      (enterBlock body k s).recast r := by
  have hpush := Arena.push_recast (r := r) s.arena s.arena.current
  have harena : (s.recast r).arena = s.arena.recast r := rfl
  have hcurrent : (s.arena.recast r).current = s.arena.current := rfl
  unfold enterBlock
  simp only [harena, hcurrent, hpush]
  rfl

theorem bindParams_recast (a : Arena) (params : List Param) (args : List Value)
    (h : r.permits = true → ∀ name pos,
      (bindParams a params args).2 ≠ some ⟨.redefined name, pos⟩) :
    bindParams (a.recast r) (params.map (Param.moved r.move)) (args.map (Value.recast r)) =
      ((bindParams a params args).1.recast r,
        (bindParams a params args).2.map (Diagnostic.moved r.move)) := by
  induction params generalizing a args with
  | nil => cases args <;> rfl
  | cons q params ih =>
    cases args with
    | nil => rfl
    | cons v args =>
      have hdefine := Arena.define_recast (r := r) a q.name v fun hpermits hfault => by
        refine h hpermits q.name q.pos ?_
        unfold bindParams
        rcases hd : a.define q.name v with ⟨b, fault⟩
        rw [hd] at hfault
        simp only at hfault
        subst hfault
        rfl
      rw [List.map_cons, List.map_cons]
      unfold bindParams at h ⊢
      have hname : (q.moved r.move).name = q.name := rfl
      rw [hname, hdefine]
      rcases hd : a.define q.name v with ⟨b, fault⟩
      rw [hd] at h
      -- the parameters after one that is refused are not bound
      cases fault with
      | none => exact ih b args h
      | some fault => rfl

theorem call_recast (callee : Value) (args : List Value)
    (h : r.permits = true → ¬ (call callee args pos k s).Refused) :
    call (callee.recast r) (args.map (Value.recast r)) (r.move pos) (Stack.recast r k)
      (s.recast r) = (call callee args pos k s).recast r := by
  cases callee with
  | function f =>
    have hdecl : (f.recast r).decl.name = f.decl.name ∧
        (f.recast r).decl.arity = f.decl.arity ∧
        (f.recast r).decl.params = f.decl.params.map (Param.moved r.move) ∧
        (f.recast r).decl.body = f.decl.body.map (Stmt.moved r.move) := by
      simp only [Closure.recast, FunDecl.moved_eq, FunDecl.arity, List.length_map,
        Stmt.movedEach_eq_map, and_self]
    obtain ⟨hname, harity, hparams, hbody⟩ := hdecl
    have hcaptured : (f.recast r).captured = f.captured := rfl
    have harena : (s.recast r).arena = s.arena.recast r := rfl
    have hdepth : (s.recast r).depth = s.depth := rfl
    have hmax : (s.recast r).maxDepth = s.maxDepth := rfl
    have hcurrent : (s.arena.recast r).current = s.arena.current := rfl
    simp only [Value.recast]
    unfold call at h ⊢
    simp only [hname, harity, hparams, hbody, hcaptured, harena, hdepth, hmax, hcurrent,
      List.length_map, Arena.push_recast] at h ⊢
    by_cases hgiven : args.length = f.decl.arity
    · by_cases hfull : s.maxDepth ≤ s.depth
      · simp only [hgiven, ne_eq, not_true_eq_false, if_false, hfull, if_true]
        rfl
      · simp only [hgiven, ne_eq, not_true_eq_false, if_false, hfull] at h ⊢
        have hbind := bindParams_recast (r := r)
          ((s.arena.push f.captured).1.enter (s.arena.push f.captured).2) f.decl.params args
          fun hpermits name pos' hfailure => by
            refine h hpermits ⟨name, pos', ?_⟩
            rw [hfailure]
        have henter : ((s.arena.push f.captured).1.recast r).enter (s.arena.push f.captured).2 =
            ((s.arena.push f.captured).1.enter (s.arena.push f.captured).2).recast r := rfl
        rw [henter, hbind]
        rcases bindParams _ f.decl.params args with ⟨a, failure⟩
        cases failure <;> rfl
    · simp only [ne_eq, hgiven, not_false_eq_true, if_true]
      rfl
  | number x => rfl
  | string t => rfl
  | bool b => rfl
  | nil => rfl

theorem nextArgument_recast (callee : Value) (before : List Value) (after : List Expr)
    (h : r.permits = true → ¬ (nextArgument callee before after pos k s).Refused) :
    nextArgument (callee.recast r) (before.map (Value.recast r))
      (after.map (Expr.moved r.move)) (r.move pos) (Stack.recast r k) (s.recast r) =
      (nextArgument callee before after pos k s).recast r := by
  cases after with
  | cons e after => rfl
  | nil =>
    unfold nextArgument at h ⊢
    simp only [List.map_nil, ← List.map_reverse]
    exact call_recast callee before.reverse h

/-! ## Steps -/

theorem evaluate_recast (e : Expr) :
    evaluate (e.moved r.move) (Stack.recast r k) (s.recast r) = (evaluate e k s).recast r := by
  cases e with
  | literal l pos => cases l <;> rfl
  | ident name pos =>
    have harena : (s.recast r).arena = s.arena.recast r := rfl
    simp only [evaluate, Expr.moved, harena, Arena.get?_recast]
    cases s.arena.get? name <;> rfl
  | call callee args pos =>
    simp only [evaluate, Expr.moved, Expr.movedEach_eq_map]
    rfl
  | _ => rfl

theorem execute_recast (st : Stmt) (h : r.permits = true → ¬ (execute st k s).Refused) :
    execute (st.moved r.move) (Stack.recast r k) (s.recast r) = (execute st k s).recast r := by
  cases st with
  | declare name initial pos =>
    cases initial with
    | none => exact defineAt_recast h
    | some e => rfl
  | block body =>
    simp only [Stmt.moved, Stmt.movedEach_eq_map]
    exact enterBlock_recast body
  | branch condition whenTrue whenFalse pos =>
    simp only [Stmt.moved, Stmt.movedElse_eq_map]
    rfl
  | function decl =>
    have hclosure := Arena.closure_recast (r := r) s.arena decl
    have harena : (s.recast r).arena = s.arena.recast r := rfl
    have hname : (decl.moved r.move).name = decl.name := by rw [FunDecl.moved_eq]
    have hpos : (decl.moved r.move).pos = r.move decl.pos := by rw [FunDecl.moved_eq]
    simp only [Stmt.moved, execute, harena, hclosure, hname, hpos] at h ⊢
    exact defineAt_recast (s := { s with arena := (s.arena.closure decl).1 }) h
  | giveBack value pos => cases value <;> rfl
  | _ => rfl

theorem resume_recast (p : Continuation) (o : Outcome)
    (h : r.permits = true → ¬ (resume p o k s).Refused) :
    resume (p.recast r) (o.recast r) (Stack.recast r k) (s.recast r) =
      (resume p o k s).recast r := by
  have harena : (s.recast r).arena = s.arena.recast r := rfl
  cases p with
  | assign name pos =>
    simp only [resume, Continuation.recast, Outcome.asValue_recast]
    exact assignAt_recast
  | unary op pos =>
    simp only [resume, Continuation.recast, Outcome.asValue_recast, UnaryOp.apply_recast]
    exact yield_recast fun v => UnaryOp.functions_apply
  | binaryRight op left pos =>
    simp only [resume, Continuation.recast, Outcome.asValue_recast, BinaryOp.apply_recast]
    exact yield_recast fun v => BinaryOp.functions_apply
  | binaryLeft op right pos =>
    simp only [resume, Continuation.recast, Outcome.asValue_recast]
    rfl
  | logicalLeft op right =>
    simp only [resume, Continuation.recast, Outcome.asValue_recast, LogicalOp.decides_recast]
    split <;> rfl
  | callee args pos =>
    simp only [resume, Continuation.recast, Outcome.asValue_recast] at h ⊢
    exact nextArgument_recast o.asValue [] args h
  | argument callee before after pos =>
    simp only [resume, Continuation.recast, Outcome.asValue_recast] at h ⊢
    exact nextArgument_recast callee (o.asValue :: before) after h
  | print pos =>
    simp only [resume, Continuation.recast, Outcome.asValue_recast]
    exact printAt_recast
  | define name pos =>
    simp only [resume, Continuation.recast, Outcome.asValue_recast] at h ⊢
    exact defineAt_recast h
  | branch whenTrue whenFalse =>
    simp only [resume, Continuation.recast, Outcome.asValue_recast, Value.isTruthy_recast]
    split
    · rfl
    · cases whenFalse <;> rfl
  | loopTest condition body increment =>
    simp only [resume, Continuation.recast, Outcome.asValue_recast, Value.isTruthy_recast]
    split <;> rfl
  | loopBody condition body increment =>
    simp only [resume, Continuation.recast, Outcome.asSignal_recast]
    cases o.asSignal with
    | exitLoop => rfl
    | returned v => rfl
    | normal => cases increment <;> rfl
    | nextIteration => cases increment <;> rfl
  | giveBack =>
    simp only [resume, Continuation.recast, Outcome.asValue_recast]
    rfl
  | sequence rest =>
    simp only [resume, Continuation.recast, Outcome.asSignal_recast]
    cases o.asSignal with
    | normal => cases rest <;> rfl
    | exitLoop => cases rest <;> rfl
    | nextIteration => cases rest <;> rfl
    | returned v => cases rest <;> rfl
  | leaveBlock frame caller =>
    have hleave := leaveFrame_recast (r := r) s.arena frame caller
      (o.functions ++ (k.functions ++ s.held))
    simp only [List.map_append] at hleave
    simp only [resume, Continuation.recast, harena, Outcome.functions_recast,
      Stack.functions_recast, Session.held_recast, hleave]
    rfl
  | leaveCall f frame caller =>
    have hleave := leaveFrame_recast (r := r) s.arena frame caller
      (o.functions ++ (f :: (k.functions ++ s.held)))
    simp only [List.map_append, List.map_cons] at hleave
    simp only [resume, Continuation.recast, harena, Outcome.functions_recast,
      Outcome.asValue_recast, Stack.functions_recast, Session.held_recast, hleave]
    rfl
  | _ => rfl

theorem unwind_recast (p : Continuation) (d : Diagnostic) :
    unwind (p.recast r) (d.moved r.move) (Stack.recast r k) (s.recast r) =
      (unwind p d k s).recast r := by
  have harena : (s.recast r).arena = s.arena.recast r := rfl
  cases p with
  | leaveBlock frame caller =>
    have hleave := leaveFrame_recast (r := r) s.arena frame caller (k.functions ++ s.held)
    simp only [List.map_append] at hleave
    simp only [unwind, Continuation.recast, harena, Stack.functions_recast, Session.held_recast,
      hleave]
    rfl
  | leaveCall f frame caller =>
    have hleave := leaveFrame_recast (r := r) s.arena frame caller (f :: (k.functions ++ s.held))
    simp only [List.map_append, List.map_cons] at hleave
    simp only [unwind, Continuation.recast, harena, Stack.functions_recast, Session.held_recast,
      hleave]
    rfl
  | _ => rfl

/-- **The change commutes with a step**, unless the strict rule is lifted and the step is refused
because of it. -/
theorem step_recast {c : Configuration} (h : r.permits = true → ¬ c.step.Refused) :
    (c.recast r).step = c.step.recast r := by
  obtain ⟨control, k, s⟩ := c
  cases control with
  | eval e => exact evaluate_recast e
  | exec st => exact execute_recast st h
  | done o =>
    cases k with
    | nil => rfl
    | cons p k => exact resume_recast p o h
  | failed d =>
    cases k with
    | nil => rfl
    | cons p k => exact unwind_recast p d

/-! ## Runs -/

variable {c : Configuration} {n : Nat}

/-- The change can be made before or after any number of steps. -/
theorem after_recast (h : r.permits = true → ∀ m ≤ n, ¬ (c.after m).Refused) :
    (c.recast r).after n = (c.after n).recast r := by
  induction n with
  | zero => rfl
  | succ n ih =>
    rw [after_succ_eq_step, after_succ_eq_step,
      ih fun hpermits m hm => h hpermits m (Nat.le_succ_of_le hm)]
    refine step_recast fun hpermits => ?_
    rw [← after_succ_eq_step]
    exact h hpermits (n + 1) (Nat.le_refl _)

/-- What a run ends with, at other positions. -/
def ending (r : Recast) (e : Except Diagnostic Outcome × Session) :
    Except Diagnostic Outcome × Session :=
  ((e.1.map (Outcome.recast r)).mapError (Diagnostic.moved r.move), e.2.recast r)

theorem ended?_recast (c : Configuration) : (c.recast r).ended? = c.ended?.map (ending r) := by
  obtain ⟨control, k, s⟩ := c
  cases k <;> cases control <;> rfl

/-- A run ends as it does without the change, and where its positions are moved to. -/
theorem run_recast (h : r.permits = true → ∀ m ≤ n, ¬ (c.after m).Refused) :
    (c.recast r).run n = (c.run n).map (ending r) := by
  rw [run_eq_after, run_eq_after, after_recast h, ended?_recast]

/-- A move of positions never stands in the way. -/
theorem after_moving (μ : Position → Position) (c : Configuration) (n : Nat) :
    (c.recast (.moving μ)).after n = (c.after n).recast (.moving μ) :=
  after_recast fun hpermits => by cases hpermits

/-- The beginning of a program at other positions. -/
theorem begin_recast (μ : Position → Position) (program : Program) (s : Session) :
    (⟨.done .normal, [.sequence program], s⟩ : Configuration).recast (.moving μ) =
      ⟨.done .normal, [.sequence (program.moved μ)], s.recast (.moving μ)⟩ := by
  rw [Program.moved, Stmt.movedEach_eq_map]
  rfl

/-- A program fails at a position of its own, or of a function that the session had before. -/
theorem mem_of_run {program : Program} {d : Diagnostic} {t : Session}
    (h : run n ⟨.done .normal, [.sequence program], s⟩ = some (.error d, t)) :
    d.pos ∈ program.positions ++ s.positions := by
  refine Position.mem_of_fixed fun μ hμ => ?_
  have hprogram : program.moved μ = program :=
    (Stmt.movedEach_congr fun p hp => hμ p (List.mem_append_left _ hp)).trans
      (Stmt.movedEach_id program)
  have hsession : s.recast (.moving μ) = s :=
    (Session.recast_congr fun p hp => hμ p (List.mem_append_right _ hp)).trans
      (Session.recast_id s)
  -- what stays as it is when positions are moved runs to what stays as it is
  have hmoved := run_recast (r := .moving μ) (n := n)
    (c := ⟨.done .normal, [.sequence program], s⟩) fun hpermits => nomatch hpermits
  rw [begin_recast, hprogram, hsession, h] at hmoved
  have hending := congrArg Prod.fst (Option.some.inj hmoved)
  exact congrArg Diagnostic.pos (Except.error.inj hending).symm

end Configuration

end Script
