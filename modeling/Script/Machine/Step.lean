import Script.Machine.Configuration
import Script.Value.Operation

/-!
# One step of the machine

- `Configuration.evaluate`, `Configuration.execute`: a step into an expression or a statement.
- `Configuration.resume`: a step with an outcome to what waited for it.
- `Configuration.unwind`: a step with a failure to what has to be left because of it.
- `Configuration.step`: the step of a configuration. One that has ended stays as it is.

A block or call that is left by an outcome or by a failure is left in one way: the frame from which
it was entered becomes the innermost scope again, and its own frame is released.
-/

namespace Script.Configuration

/-! ## Scopes -/

/-- Runs statements in a new frame inside the innermost scope. -/
def enterBlock (body : List Stmt) (k : Stack) (s : Session) : Configuration :=
  let caller := s.arena.current
  let (arena, frame) := s.arena.push caller
  ⟨.done .normal, .sequence body :: .leaveBlock frame caller :: k,
    { s with arena := arena.enter frame }⟩

/-- Goes back from `frame` to `caller` when `outside` lists the functions held outside the
frames. -/
@[macro_inline]
def leaveFrame (arena : Arena) (frame caller : Handle) (outside : List Closure) : Arena :=
  let entered := arena.enter caller
  entered.release frame outside

/-- Binds parameters to arguments in the innermost frame, up to the first that cannot be bound. -/
def bindParams : Arena → List Param → List Value → Arena × Option Diagnostic
  | arena, p :: ps, v :: vs =>
    match arena.define p.name v with
    | (arena, none) => bindParams arena ps vs
    | (arena, some fault) => (arena, some ⟨fault, p.pos⟩)
  | arena, _, _ => (arena, none)

/-- Calls a value at `pos`. The arguments have been evaluated; the value has to be a function, then
their number has to be right, then there has to be room for one more call. -/
def call (callee : Value) (args : List Value) (pos : Position) (k : Stack) (s : Session) :
    Configuration :=
  match callee with
  | .function f =>
    if args.length ≠ f.decl.arity then
      ⟨.failed ⟨.wrongArity f.decl.name f.decl.arity args.length, pos⟩, k, s⟩
    else if s.maxDepth ≤ s.depth then ⟨.failed ⟨.callsTooDeep s.maxDepth, pos⟩, k, s⟩
    else
      let caller := s.arena.current
      let (arena, frame) := s.arena.push f.captured
      let (arena, failure) := bindParams (arena.enter frame) f.decl.params args
      let s := { s with arena := arena, depth := s.depth + 1 }
      match failure with
      | none => ⟨.done .normal, .sequence f.decl.body :: .leaveCall f frame caller :: k, s⟩
      | some d => ⟨.failed d, .leaveCall f frame caller :: k, s⟩
  | v => ⟨.failed ⟨.notCallable v.kind, pos⟩, k, s⟩

/-- Evaluates the next argument, or calls once all are there. -/
def nextArgument (callee : Value) (before : List Value) (after : List Expr) (pos : Position)
    (k : Stack) (s : Session) : Configuration :=
  match after with
  | e :: after => ⟨.eval e, .argument callee before after pos :: k, s⟩
  | [] => call callee before.reverse pos k s

/-! ## Values -/

/-- Ends with the value of an operator, or with its fault at `pos`. -/
def yield (r : Except Fault Value) (pos : Position) (k : Stack) (s : Session) : Configuration :=
  match r with
  | .ok v => ⟨.done (.value v), k, s⟩
  | .error fault => ⟨.failed ⟨fault, pos⟩, k, s⟩

/-- Binds a name in the innermost frame, and ends. -/
def defineAt (name : String) (v : Value) (pos : Position) (k : Stack) (s : Session) :
    Configuration :=
  match s.arena.define name v with
  | (arena, none) => ⟨.done .normal, k, { s with arena := arena }⟩
  | (arena, some fault) => ⟨.failed ⟨fault, pos⟩, k, { s with arena := arena }⟩

/-- Assigns to a name, and ends with the value. -/
def assignAt (name : String) (v : Value) (pos : Position) (k : Stack) (s : Session) :
    Configuration :=
  match s.arena.assign name v with
  | (arena, none) => ⟨.done (.value v), k, { s with arena := arena }⟩
  | (arena, some fault) => ⟨.failed ⟨fault, pos⟩, k, { s with arena := arena }⟩

/-- Writes a value and a line feed, and ends. -/
def printAt (v : Value) (pos : Position) (k : Stack) (s : Session) : Configuration :=
  match s.sink.writeLine v.text with
  | (sink, none) => ⟨.done .normal, k, { s with sink := sink }⟩
  | (sink, some reason) => ⟨.failed ⟨.outputFailed reason, pos⟩, k, { s with sink := sink }⟩

/-! ## Steps -/

/-- A step into an expression. -/
def evaluate (e : Expr) (k : Stack) (s : Session) : Configuration :=
  match e with
  | .literal l _ => ⟨.done (.value (.ofLiteral l)), k, s⟩
  | .group inner _ => ⟨.eval inner, k, s⟩
  | .ident name pos =>
    match s.arena.get? name with
    | some v => ⟨.done (.value v), k, s⟩
    | none => ⟨.failed ⟨.undefined name, pos⟩, k, s⟩
  | .assign name value pos => ⟨.eval value, .assign name pos :: k, s⟩
  | .unary op operand pos => ⟨.eval operand, .unary op pos :: k, s⟩
  | .binary op left right pos => ⟨.eval left, .binaryLeft op right pos :: k, s⟩
  | .logical op left right _ => ⟨.eval left, .logicalLeft op right :: k, s⟩
  | .call callee args pos => ⟨.eval callee, .callee args pos :: k, s⟩

/-- A step into a statement. -/
def execute (st : Stmt) (k : Stack) (s : Session) : Configuration :=
  match st with
  | .expression e => ⟨.eval e, .discard :: k, s⟩
  | .print e pos => ⟨.eval e, .print pos :: k, s⟩
  | .declare name (some e) pos => ⟨.eval e, .define name pos :: k, s⟩
  | .declare name none pos => defineAt name .nil pos k s
  | .block body => enterBlock body k s
  | .branch condition whenTrue whenFalse _ =>
    ⟨.eval condition, .branch whenTrue whenFalse :: k, s⟩
  | .loop condition body increment _ =>
    ⟨.eval condition, .loopTest condition body increment :: k, s⟩
  | .exitLoop _ => ⟨.done (.signal .exitLoop), k, s⟩
  | .nextIteration _ => ⟨.done (.signal .nextIteration), k, s⟩
  | .function decl =>
    let (arena, f) := s.arena.closure decl
    defineAt decl.name (.function f) decl.pos k { s with arena := arena }
  | .giveBack (some e) _ => ⟨.eval e, .giveBack :: k, s⟩
  | .giveBack none _ => ⟨.done (.signal (.returned .nil)), k, s⟩

/-- A step with an outcome to what waited for it. -/
def resume (p : Continuation) (o : Outcome) (k : Stack) (s : Session) : Configuration :=
  match p with
  | .assign name pos => assignAt name o.asValue pos k s
  | .unary op pos => yield (op.apply o.asValue) pos k s
  | .binaryLeft op right pos => ⟨.eval right, .binaryRight op o.asValue pos :: k, s⟩
  | .binaryRight op left pos => yield (op.apply left o.asValue) pos k s
  | .logicalLeft op right =>
    if op.decides o.asValue then ⟨.done (.value o.asValue), k, s⟩
    else ⟨.eval right, .logicalRight o.asValue :: k, s⟩
  | .logicalRight _ => ⟨.done o, k, s⟩
  | .callee args pos => nextArgument o.asValue [] args pos k s
  | .argument callee before after pos => nextArgument callee (o.asValue :: before) after pos k s
  | .discard => ⟨.done .normal, k, s⟩
  | .print pos => printAt o.asValue pos k s
  | .define name pos => defineAt name o.asValue pos k s
  | .branch whenTrue whenFalse =>
    if o.asValue.isTruthy then ⟨.exec whenTrue, k, s⟩
    else
      match whenFalse with
      | some st => ⟨.exec st, k, s⟩
      | none => ⟨.done .normal, k, s⟩
  | .loopTest condition body increment =>
    if o.asValue.isTruthy then ⟨.exec body, .loopBody condition body increment :: k, s⟩
    else ⟨.done .normal, k, s⟩
  | .loopBody condition body increment =>
    match o.asSignal with
    | .exitLoop => ⟨.done .normal, k, s⟩
    | .returned v => ⟨.done (.signal (.returned v)), k, s⟩
    | _ =>
      match increment with
      | some e => ⟨.eval e, .loopNext condition body increment :: k, s⟩
      | none => ⟨.eval condition, .loopTest condition body increment :: k, s⟩
  | .loopNext condition body increment =>
    ⟨.eval condition, .loopTest condition body increment :: k, s⟩
  | .giveBack => ⟨.done (.signal (.returned o.asValue)), k, s⟩
  | .sequence rest =>
    match o.asSignal, rest with
    | .normal, st :: rest => ⟨.exec st, .sequence rest :: k, s⟩
    | signal, _ => ⟨.done (.signal signal), k, s⟩
  | .leaveBlock frame caller =>
    ⟨.done o, k,
      { s with
        arena := leaveFrame s.arena frame caller (o.functions ++ (k.functions ++ s.held)) }⟩
  | .leaveCall callee frame caller =>
    ⟨.done (.value o.asValue), k,
      { s with
        arena := leaveFrame s.arena frame caller
          (o.functions ++ (callee :: (k.functions ++ s.held)))
        depth := s.depth - 1 }⟩

/-- A step with a failure to what has to be left because of it. -/
def unwind (p : Continuation) (d : Diagnostic) (k : Stack) (s : Session) : Configuration :=
  match p with
  | .leaveBlock frame caller =>
    ⟨.failed d, k, { s with arena := leaveFrame s.arena frame caller (k.functions ++ s.held) }⟩
  | .leaveCall callee frame caller =>
    ⟨.failed d, k,
      { s with
        arena := leaveFrame s.arena frame caller (callee :: (k.functions ++ s.held))
        depth := s.depth - 1 }⟩
  | _ => ⟨.failed d, k, s⟩

/-- The step of a configuration. -/
def step : Configuration → Configuration
  | ⟨.eval e, k, s⟩ => evaluate e k s
  | ⟨.exec st, k, s⟩ => execute st k s
  | ⟨.done o, p :: k, s⟩ => resume p o k s
  | ⟨.failed d, p :: k, s⟩ => unwind p d k s
  | c => c

end Script.Configuration
