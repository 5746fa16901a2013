import Script.Proofs.Machine.Effects

/-!
# How a step goes on

A step looks at the control and at no more than one part of the stack, and it puts at most two parts
on the stack. What it does there is said here once, without the session that it leaves: an invariant
of control and stack is kept by every step if it is kept in each of these ways, most of which are
alike. What is below matters only where a scope is left, which asks which functions are held there.

- `Configuration.Awaits`, `Configuration.Runs`: an expression is evaluated for a part of the stack
  that waits for it, a statement is executed that a part of the stack holds.
- `Configuration.Summons`, `Configuration.Blames`: the last value that a call needs is there, and
  what a step may fail over.
- `Configuration.Course`: all ways of going on.
- `Configuration.IsOver`, `exists_course`: every step goes on in one of them, as long as something
  remains to be done, and it does so above every stack; `step_cases` is this above no stack, and
  `forall_step` is what follows for all parts of the stack alike.
-/

namespace Script

/-- A jump that a loop has to clear. -/
def Signal.seeksLoop : Signal → Bool
  | .exitLoop => true
  | .nextIteration => true
  | _ => false

namespace Configuration

/-! ## Ways of going on -/

/-- With the control `x`, and `taken` off the stack, the expression `e` is evaluated for the part
`p` of the stack. -/
inductive Awaits : Control → Stack → Expr → Continuation → Prop
  | assign (name : String) (value : Expr) (pos : Position) :
    Awaits (.eval (.assign name value pos)) [] value (.assign name pos)
  | unary (op : UnaryOp) (operand : Expr) (pos : Position) :
    Awaits (.eval (.unary op operand pos)) [] operand (.unary op pos)
  | binaryLeft (op : BinaryOp) (left right : Expr) (pos : Position) :
    Awaits (.eval (.binary op left right pos)) [] left (.binaryLeft op right pos)
  | binaryRight (o : Outcome) (op : BinaryOp) (right : Expr) (pos : Position) :
    Awaits (.done o) [.binaryLeft op right pos] right (.binaryRight op o.asValue pos)
  | logicalLeft (op : LogicalOp) (left right : Expr) (pos : Position) :
    Awaits (.eval (.logical op left right pos)) [] left (.logicalLeft op right)
  | logicalRight (o : Outcome) (op : LogicalOp) (right : Expr) :
    op.decides o.asValue = false →
    Awaits (.done o) [.logicalLeft op right] right (.logicalRight o.asValue)
  | callee (callee : Expr) (args : List Expr) (pos : Position) :
    Awaits (.eval (.call callee args pos)) [] callee (.callee args pos)
  | firstArgument (o : Outcome) (e : Expr) (after : List Expr) (pos : Position) :
    Awaits (.done o) [.callee (e :: after) pos] e (.argument o.asValue [] after pos)
  | nextArgument (o : Outcome) (callee : Value) (before : List Value) (e : Expr)
    (after : List Expr) (pos : Position) :
    Awaits (.done o) [.argument callee before (e :: after) pos] e
      (.argument callee (o.asValue :: before) after pos)
  | discard (e : Expr) : Awaits (.exec (.expression e)) [] e .discard
  | print (e : Expr) (pos : Position) : Awaits (.exec (.print e pos)) [] e (.print pos)
  | define (name : String) (e : Expr) (pos : Position) :
    Awaits (.exec (.declare name (some e) pos)) [] e (.define name pos)
  | branch (condition : Expr) (whenTrue : Stmt) (whenFalse : Option Stmt) (pos : Position) :
    Awaits (.exec (.branch condition whenTrue whenFalse pos)) [] condition
      (.branch whenTrue whenFalse)
  | loop (condition : Expr) (body : Stmt) (increment : Option Expr) (pos : Position) :
    Awaits (.exec (.loop condition body increment pos)) [] condition
      (.loopTest condition body increment)
  | increment (o : Outcome) (condition : Expr) (body : Stmt) (e : Expr) :
    o.asSignal = .normal ∨ o.asSignal = .nextIteration →
    Awaits (.done o) [.loopBody condition body (some e)] e (.loopNext condition body (some e))
  | bodyEnded (o : Outcome) (condition : Expr) (body : Stmt) :
    o.asSignal = .normal ∨ o.asSignal = .nextIteration →
    Awaits (.done o) [.loopBody condition body none] condition (.loopTest condition body none)
  | incremented (o : Outcome) (condition : Expr) (body : Stmt) (increment : Option Expr) :
    Awaits (.done o) [.loopNext condition body increment] condition
      (.loopTest condition body increment)
  | giveBack (e : Expr) (pos : Position) : Awaits (.exec (.giveBack (some e) pos)) [] e .giveBack

/-- With the outcome `o`, the part `p` of the stack has the statement `st` executed, with `put` to
do behind it. -/
inductive Runs (o : Outcome) : Continuation → Stmt → Stack → Prop
  | whenTrue (whenTrue : Stmt) (whenFalse : Option Stmt) : o.asValue.isTruthy = true →
    Runs o (.branch whenTrue whenFalse) whenTrue []
  | whenFalse (whenTrue whenFalse : Stmt) : o.asValue.isTruthy = false →
    Runs o (.branch whenTrue (some whenFalse)) whenFalse []
  | body (condition : Expr) (body : Stmt) (increment : Option Expr) : o.asValue.isTruthy = true →
    Runs o (.loopTest condition body increment) body [.loopBody condition body increment]
  | next (st : Stmt) (rest : List Stmt) : o.asSignal = .normal →
    Runs o (.sequence (st :: rest)) st [.sequence rest]

/-- With the outcome `o`, the part `p` of the stack has everything for a call of `callee`. -/
inductive Summons (o : Outcome) : Continuation → Value → List Value → Position → Prop
  | alone (pos : Position) : Summons o (.callee [] pos) o.asValue [] pos
  | last (callee : Value) (before : List Value) (pos : Position) :
    Summons o (.argument callee before [] pos) callee (o.asValue :: before).reverse pos

/-- What a step fails over, and what it is then at fault for. -/
inductive Blames (s : Session) : Control → Stack → Diagnostic → Prop
  | undefined (name : String) (pos : Position) : s.arena.get? name = none →
    Blames s (.eval (.ident name pos)) [] ⟨.undefined name, pos⟩
  | declare {name : String} {pos : Position} {fault : Fault} :
    (s.arena.define name .nil).2 = some fault →
    Blames s (.exec (.declare name none pos)) [] ⟨fault, pos⟩
  | function {decl : FunDecl} {fault : Fault} :
    ((s.arena.closure decl).1.define decl.name (.function (s.arena.closure decl).2)).2 =
      some fault → Blames s (.exec (.function decl)) [] ⟨fault, decl.pos⟩
  | define {o : Outcome} {name : String} {pos : Position} {fault : Fault} :
    (s.arena.define name o.asValue).2 = some fault →
    Blames s (.done o) [.define name pos] ⟨fault, pos⟩
  | assign {o : Outcome} {name : String} {pos : Position} {fault : Fault} :
    (s.arena.assign name o.asValue).2 = some fault →
    Blames s (.done o) [.assign name pos] ⟨fault, pos⟩
  | unary {o : Outcome} {op : UnaryOp} {pos : Position} {fault : Fault} :
    op.apply o.asValue = .error fault → Blames s (.done o) [.unary op pos] ⟨fault, pos⟩
  | binary {o : Outcome} {op : BinaryOp} {left : Value} {pos : Position} {fault : Fault} :
    op.apply left o.asValue = .error fault →
    Blames s (.done o) [.binaryRight op left pos] ⟨fault, pos⟩
  | print {o : Outcome} {pos : Position} {reason : String} :
    (s.sink.writeLine o.asValue.text).2 = some reason →
    Blames s (.done o) [.print pos] ⟨.outputFailed reason, pos⟩
  | callee {o : Outcome} {p : Continuation} {v : Value} {args : List Value} {pos : Position} :
    Summons o p v args pos → v.functions = [] → Blames s (.done o) [p] ⟨.notCallable v.kind, pos⟩
  | arity {o : Outcome} {p : Continuation} {f : Closure} {args : List Value} {pos : Position} :
    Summons o p (.function f) args pos → args.length ≠ f.decl.arity →
    Blames s (.done o) [p] ⟨.wrongArity f.decl.name f.decl.arity args.length, pos⟩
  | room {o : Outcome} {p : Continuation} {f : Closure} {args : List Value} {pos : Position} :
    Summons o p (.function f) args pos → args.length = f.decl.arity → s.maxDepth ≤ s.depth →
    Blames s (.done o) [p] ⟨.callsTooDeep s.maxDepth, pos⟩

/-- With the control `x`, and `taken` off the stack, something may come to its end by itself. -/
inductive Ends : Control → Stack → Prop
  | expression (e : Expr) : Ends (.eval e) []
  | statement {st : Stmt} : (∀ decl, st ≠ .function decl) → Ends (.exec st) []
  | part (o : Outcome) {p : Continuation} : p.scope? = none → Ends (.done o) [p]

/-- How a step goes on in the session `s`: the control `x` and the parts `taken` off the stack
become the control `y` and the parts `put` on the stack. -/
inductive Course (s : Session) : Control → Stack → Control → Stack → Prop
  | group (inner : Expr) (pos : Position) :
    Course s (.eval (.group inner pos)) [] (.eval inner) []
  | awaits {x : Control} {taken : Stack} {e : Expr} {p : Continuation} :
    Awaits x taken e p → Course s x taken (.eval e) [p]
  | runs {o : Outcome} {p : Continuation} {st : Stmt} {put : Stack} :
    Runs o p st put → Course s (.done o) [p] (.exec st) put
  /-- Something ends by itself, or with a value that is returned. -/
  | ends {x : Control} {taken : Stack} {o : Outcome} :
    Ends x taken → o.asSignal.seeksLoop = false → Course s x taken (.done o) []
  | declares (decl : FunDecl) : Course s (.exec (.function decl)) [] (.done .normal) []
  | exitLoop (pos : Position) :
    Course s (.exec (.exitLoop pos)) [] (.done (.signal .exitLoop)) []
  | nextIteration (pos : Position) :
    Course s (.exec (.nextIteration pos)) [] (.done (.signal .nextIteration)) []
  /-- An outcome is passed on as it is. -/
  | logicalRight (o : Outcome) (left : Value) : Course s (.done o) [.logicalRight left] (.done o) []
  /-- A list of statements has ended, or is left with a jump. -/
  | sequence (o : Outcome) (rest : List Stmt) : (o.asSignal = .normal → rest = []) →
    Course s (.done o) [.sequence rest] (.done (.signal o.asSignal)) []
  | fails {x : Control} {taken : Stack} {d : Diagnostic} :
    Blames s x taken d → Course s x taken (.failed d) []
  | block (body : List Stmt) :
    Course s (.exec (.block body)) [] (.done .normal)
      [.sequence body, .leaveBlock (s.arena.push s.arena.current).2 s.arena.current]
  | call {o : Outcome} {p : Continuation} {f : Closure} {args : List Value} {pos : Position} :
    Summons o p (.function f) args pos → args.length = f.decl.arity → s.depth < s.maxDepth →
    Course s (.done o) [p] (.done .normal)
      [.sequence f.decl.body, .leaveCall f (s.arena.push f.captured).2 s.arena.current]
  /-- A parameter cannot be bound. -/
  | badCall {o : Outcome} {p : Continuation} {f : Closure} {args : List Value} {pos : Position}
    {d : Diagnostic} :
    Summons o p (.function f) args pos → args.length = f.decl.arity → s.depth < s.maxDepth →
    (bindParams ((s.arena.push f.captured).1.enter (s.arena.push f.captured).2)
      f.decl.params args).2 = some d →
    Course s (.done o) [p] (.failed d)
      [.leaveCall f (s.arena.push f.captured).2 s.arena.current]
  | leaveBlock (o : Outcome) (frame caller : Handle) :
    Course s (.done o) [.leaveBlock frame caller] (.done o) []
  | leaveCall (o : Outcome) (f : Closure) (frame caller : Handle) :
    Course s (.done o) [.leaveCall f frame caller] (.done (.value o.asValue)) []
  | unwind (d : Diagnostic) (p : Continuation) : Course s (.failed d) [p] (.failed d) []

/-- The function that is called is the value that is there, or is held by what waits for it. -/
theorem Summons.held {o : Outcome} {p : Continuation} {f : Closure} {args : List Value}
    {pos : Position} (h : Summons o p (.function f) args pos) :
    f ∈ (Control.done o).functions ∨ f ∈ Stack.functions [p] := by
  have hcallee : f ∈ (Value.function f).functions := List.mem_cons_self
  generalize Value.function f = callee at h hcallee
  cases h with
  | alone pos => exact .inl (Outcome.mem_functions_of_asValue hcallee)
  | last callee before pos =>
    rw [Stack.functions_cons]
    exact .inr (List.mem_append_left _ (List.mem_append_left _ hcallee))

/-- No more than one part is taken off the stack, and only if something has ended. -/
theorem Course.taken_cases {s : Session} {x y : Control} {taken put : Stack}
    (h : Course s x taken y put) :
    taken = [] ∨ ∃ p, taken = [p] ∧ ((∃ o, x = .done o) ∨ ∃ d, x = .failed d) := by
  cases h with
  | awaits hawaits =>
    cases hawaits <;> first | exact .inl rfl | exact .inr ⟨_, rfl, .inl ⟨_, rfl⟩⟩
  | ends hends => cases hends <;> first | exact .inl rfl | exact .inr ⟨_, rfl, .inl ⟨_, rfl⟩⟩
  | fails hblames => cases hblames <;> first | exact .inl rfl | exact .inr ⟨_, rfl, .inl ⟨_, rfl⟩⟩
  | unwind d p => exact .inr ⟨p, rfl, .inr ⟨d, rfl⟩⟩
  | _ => first | exact .inl rfl | exact .inr ⟨_, rfl, .inl ⟨_, rfl⟩⟩

/-! ## Every step goes on in one of these ways -/

/-- What `f` makes of a stack from which `taken` has been taken is the same for all stacks that hold
the functions `held`, and is one of the ways to go on. -/
def Goes (s : Session) (x : Control) (taken : Stack) (held : List Closure)
    (f : Stack → Configuration) : Prop :=
  ∃ y put t, Course s x taken y put ∧ ∀ k, Stack.functions k = held → f k = ⟨y, put ++ k, t⟩

variable {s : Session} {x y : Control} {taken put : Stack} {held : List Closure} {o : Outcome}
  {p : Continuation} {name : String} {v : Value} {pos : Position} {args : List Value}

theorem Course.goes (h : Course s x taken y put) (t : Session) :
    Goes s x taken held fun k => ⟨y, put ++ k, t⟩ :=
  ⟨y, put, t, h, fun _ _ => rfl⟩

/-- A scope is left according to the functions that the stack below holds. -/
theorem Course.leaves (h : Course s x taken y []) (t : List Closure → Session) :
    Goes s x taken held fun k => ⟨y, k, t (Stack.functions k)⟩ := by
  refine ⟨y, [], t held, h, ?_⟩
  rintro k rfl
  rfl

theorem Awaits.goes {e : Expr} (h : Awaits x taken e p) (t : Session) :
    Goes s x taken held fun k => ⟨.eval e, p :: k, t⟩ :=
  (Course.awaits h).goes t

theorem Ends.goes (h : Ends x taken) (ho : o.asSignal.seeksLoop = false) (t : Session) :
    Goes s x taken held fun k => ⟨.done o, k, t⟩ :=
  (Course.ends h ho).goes t

theorem Blames.goes {d : Diagnostic} (h : Blames s x taken d) (t : Session) :
    Goes s x taken held fun k => ⟨.failed d, k, t⟩ :=
  (Course.fails h).goes t

theorem goes_yield {r : Except Fault Value} (hends : Ends x taken)
    (hblames : ∀ fault, r = .error fault → Blames s x taken ⟨fault, pos⟩) :
    Goes s x taken held fun k => yield r pos k s := by
  cases r with
  | ok v => exact hends.goes rfl s
  | error fault => exact (hblames fault rfl).goes s

theorem goes_defineAt {t : Session} (hdone : Course s x taken (.done .normal) [])
    (hblames : ∀ fault, (t.arena.define name v).2 = some fault → Blames s x taken ⟨fault, pos⟩) :
    Goes s x taken held fun k => defineAt name v pos k t := by
  unfold defineAt
  rcases hdefine : t.arena.define name v with ⟨a, fault⟩
  cases fault with
  | none => exact hdone.goes _
  | some fault => exact (hblames fault (congrArg Prod.snd hdefine)).goes _

theorem goes_assignAt (hends : Ends x taken)
    (hblames : ∀ fault, (s.arena.assign name v).2 = some fault → Blames s x taken ⟨fault, pos⟩) :
    Goes s x taken held fun k => assignAt name v pos k s := by
  unfold assignAt
  rcases hassign : s.arena.assign name v with ⟨a, fault⟩
  cases fault with
  | none => exact hends.goes rfl _
  | some fault => exact (hblames fault (congrArg Prod.snd hassign)).goes _

theorem goes_printAt :
    Goes s (.done o) [.print pos] held fun k => printAt o.asValue pos k s := by
  unfold printAt
  rcases hline : s.sink.writeLine o.asValue.text with ⟨sink, refused⟩
  cases refused with
  | none => exact (Ends.part o rfl).goes rfl _
  | some reason => exact (Blames.print (congrArg Prod.snd hline)).goes _

theorem Summons.goes (h : Summons o p v args pos) :
    Goes s (.done o) [p] held fun k => call v args pos k s := by
  cases v with
  | function f =>
    unfold call
    simp only
    split
    · rename_i harity
      exact (Blames.arity h harity).goes s
    · rename_i harity
      replace harity := not_not.1 harity
      split
      · rename_i hfull
        exact (Blames.room h harity hfull).goes s
      · rename_i hroom
        replace hroom := Nat.lt_of_not_le hroom
        split
        · exact (Course.call h harity hroom).goes _
        · rename_i d hbind
          exact (Course.badCall h harity hroom hbind).goes _
  | number n => exact (Blames.callee h rfl).goes s
  | string t => exact (Blames.callee h rfl).goes s
  | bool b => exact (Blames.callee h rfl).goes s
  | nil => exact (Blames.callee h rfl).goes s

theorem goes_evaluate (e : Expr) (s : Session) :
    Goes s (.eval e) [] held fun k => evaluate e k s := by
  cases e with
  | literal l pos => exact (Ends.expression _).goes rfl s
  | group inner pos => exact (Course.group inner pos).goes s
  | ident name pos =>
    unfold evaluate
    simp only
    cases hget : s.arena.get? name with
    | some v => exact (Ends.expression _).goes rfl s
    | none => exact (Blames.undefined name pos hget).goes s
  | assign name value pos => exact (Awaits.assign name value pos).goes s
  | unary op operand pos => exact (Awaits.unary op operand pos).goes s
  | binary op left right pos => exact (Awaits.binaryLeft op left right pos).goes s
  | logical op left right pos => exact (Awaits.logicalLeft op left right pos).goes s
  | call callee args pos => exact (Awaits.callee callee args pos).goes s

theorem goes_execute (st : Stmt) (s : Session) :
    Goes s (.exec st) [] held fun k => execute st k s := by
  cases st with
  | expression e => exact (Awaits.discard e).goes s
  | print e pos => exact (Awaits.print e pos).goes s
  | declare name initial pos =>
    cases initial with
    | none =>
      have hends : Ends (.exec (.declare name none pos)) [] := .statement fun decl h => nomatch h
      exact goes_defineAt (.ends hends rfl) fun _ => .declare
    | some e => exact (Awaits.define name e pos).goes s
  | block body => exact (Course.block body).goes _
  | branch condition whenTrue whenFalse pos =>
    exact (Awaits.branch condition whenTrue whenFalse pos).goes s
  | loop condition body increment pos =>
    exact (Awaits.loop condition body increment pos).goes s
  | exitLoop pos => exact (Course.exitLoop pos).goes s
  | nextIteration pos => exact (Course.nextIteration pos).goes s
  | function decl => exact goes_defineAt (.declares decl) fun _ => .function
  | giveBack value pos =>
    cases value with
    | none =>
      have hends : Ends (.exec (.giveBack none pos)) [] := .statement fun decl h => nomatch h
      exact hends.goes rfl s
    | some e => exact (Awaits.giveBack e pos).goes s

theorem goes_resume (p : Continuation) (o : Outcome) (s : Session) :
    Goes s (.done o) [p] held fun k => resume p o k s := by
  cases p with
  | assign name pos => exact goes_assignAt (.part o rfl) fun _ => .assign
  | unary op pos => exact goes_yield (.part o rfl) fun _ => .unary
  | binaryLeft op right pos => exact (Awaits.binaryRight o op right pos).goes s
  | binaryRight op left pos => exact goes_yield (.part o rfl) fun _ => .binary
  | logicalLeft op right =>
    unfold resume
    simp only
    split
    · exact (Ends.part o rfl).goes rfl s
    · rename_i hdecides
      exact (Awaits.logicalRight o op right (Bool.eq_false_iff.2 hdecides)).goes s
  | logicalRight left => exact (Course.logicalRight o left).goes s
  | callee args pos =>
    cases args with
    | nil => exact (Summons.alone pos).goes
    | cons e after => exact (Awaits.firstArgument o e after pos).goes s
  | argument callee before after pos =>
    cases after with
    | nil => exact (Summons.last callee before pos).goes
    | cons e after => exact (Awaits.nextArgument o callee before e after pos).goes s
  | discard => exact (Ends.part o rfl).goes rfl s
  | print pos => exact goes_printAt
  | define name pos => exact goes_defineAt (.ends (.part o rfl) rfl) fun _ => .define
  | branch whenTrue whenFalse =>
    unfold resume
    simp only
    split
    · rename_i htruthy
      exact (Course.runs (.whenTrue whenTrue whenFalse htruthy)).goes s
    · rename_i htruthy
      cases whenFalse with
      | none => exact (Ends.part o rfl).goes rfl s
      | some st =>
        exact (Course.runs (.whenFalse whenTrue st (Bool.eq_false_iff.2 htruthy))).goes s
  | loopTest condition body increment =>
    unfold resume
    simp only
    split
    · rename_i htruthy
      exact (Course.runs (.body condition body increment htruthy)).goes s
    · exact (Ends.part o rfl).goes rfl s
  | loopBody condition body increment =>
    unfold resume
    cases hjump : o.asSignal with
    | exitLoop => exact (Ends.part o rfl).goes rfl s
    | returned v => exact (Ends.part o rfl).goes rfl s
    | normal =>
      cases increment with
      | none => exact (Awaits.bodyEnded o condition body (.inl hjump)).goes s
      | some e => exact (Awaits.increment o condition body e (.inl hjump)).goes s
    | nextIteration =>
      cases increment with
      | none => exact (Awaits.bodyEnded o condition body (.inr hjump)).goes s
      | some e => exact (Awaits.increment o condition body e (.inr hjump)).goes s
  | loopNext condition body increment =>
    exact (Awaits.incremented o condition body increment).goes s
  | giveBack => exact (Ends.part o rfl).goes rfl s
  | sequence rest =>
    unfold resume
    simp only
    split
    · rename_i st rest hnormal
      exact (Course.runs (.next st rest hnormal)).goes s
    · rename_i all _ _ hmore
      refine (Course.sequence o all fun hnormal => ?_).goes s
      cases all with
      | nil => rfl
      | cons st rest => exact (hmore st rest hnormal rfl).elim
  | leaveBlock frame caller =>
    exact (Course.leaveBlock o frame caller).leaves fun held => { s with
      arena := leaveFrame s.arena frame caller (o.functions ++ (held ++ s.held)) }
  | leaveCall f frame caller =>
    exact (Course.leaveCall o f frame caller).leaves fun held => { s with
      arena := leaveFrame s.arena frame caller (o.functions ++ (f :: (held ++ s.held)))
      depth := s.depth - 1 }

theorem goes_unwind (p : Continuation) (d : Diagnostic) (s : Session) :
    Goes s (.failed d) [p] held fun k => unwind p d k s := by
  cases p with
  | leaveBlock frame caller =>
    exact (Course.unwind d _).leaves fun held => { s with
      arena := leaveFrame s.arena frame caller (held ++ s.held) }
  | leaveCall f frame caller =>
    exact (Course.unwind d _).leaves fun held => { s with
      arena := leaveFrame s.arena frame caller (f :: (held ++ s.held))
      depth := s.depth - 1 }
  | _ => exact (Course.unwind d _).goes s

variable {c : Configuration} {k top : Stack}

/-- Something has ended, and nothing remains to be done before `k`. -/
def IsOver (k : Stack) (c : Configuration) : Prop :=
  c.stack = k ∧ ((∃ o, c.control = .done o) ∨ ∃ d, c.control = .failed d)

/-- **A step goes on in one of these ways**, as long as something remains to be done above `k`. It
takes nothing off `k`, and does the same above any other stack that holds the same functions. -/
theorem exists_course (hstack : c.stack = top ++ k) (hbusy : ¬ c.IsOver k) :
    ∃ taken rest y put t, top = taken ++ rest ∧ Course c.session c.control taken y put ∧
      c.step = ⟨y, put ++ (rest ++ k), t⟩ ∧
      ∀ k', Stack.functions k' = Stack.functions k →
        step ⟨c.control, top ++ k', c.session⟩ = ⟨y, put ++ (rest ++ k'), t⟩ := by
  obtain ⟨control, stack, s⟩ := c
  obtain rfl : stack = top ++ k := hstack
  -- in each case the step goes on from what is left of the part above
  have hgoes {taken rest : Stack} {f : Stack → Configuration} (htop : top = taken ++ rest)
      (hf : ∀ k, step ⟨control, top ++ k, s⟩ = f (rest ++ k))
      (h : Goes s control taken (Stack.functions (rest ++ k)) f) :
      ∃ taken rest y put t, top = taken ++ rest ∧ Course s control taken y put ∧
        step ⟨control, top ++ k, s⟩ = ⟨y, put ++ (rest ++ k), t⟩ ∧
        ∀ k', Stack.functions k' = Stack.functions k →
          step ⟨control, top ++ k', s⟩ = ⟨y, put ++ (rest ++ k'), t⟩ := by
    obtain ⟨y, put, t, hcourse, hall⟩ := h
    refine ⟨taken, rest, y, put, t, htop, hcourse, (hf k).trans (hall _ rfl), fun k' hk' => ?_⟩
    refine (hf k').trans (hall _ ?_)
    rw [Stack.functions_append, Stack.functions_append, hk']
  cases control with
  | eval e => exact hgoes (List.nil_append _).symm (fun _ => rfl) (goes_evaluate e s)
  | exec st => exact hgoes (List.nil_append _).symm (fun _ => rfl) (goes_execute st s)
  | done o =>
    cases top with
    | nil => exact absurd ⟨rfl, .inl ⟨o, rfl⟩⟩ hbusy
    | cons p top => exact hgoes List.singleton_append.symm (fun _ => rfl) (goes_resume p o s)
  | failed d =>
    cases top with
    | nil => exact absurd ⟨rfl, .inr ⟨d, rfl⟩⟩ hbusy
    | cons p top => exact hgoes List.singleton_append.symm (fun _ => rfl) (goes_unwind p d s)

/-- What the control holds, or what is taken off the stack, is held. -/
theorem holds_of_taken (hstack : c.stack = taken ++ k) {fn : Closure}
    (hfn : fn ∈ c.control.functions ∨ fn ∈ Stack.functions taken) : c.Holds fn := by
  refine hfn.imp id fun hfn => ?_
  rw [hstack, Stack.functions_append]
  exact List.mem_append_left _ hfn

/-- A step leaves alone what has ended, or goes on. -/
theorem step_cases (c : Configuration) :
    (c.IsOver [] ∧ c.step = c) ∨ ∃ taken k y put t, c.stack = taken ++ k ∧
      Course c.session c.control taken y put ∧ c.step = ⟨y, put ++ k, t⟩ := by
  by_cases hover : c.IsOver []
  · refine .inl ⟨hover, ?_⟩
    obtain ⟨control, stack, s⟩ := c
    obtain ⟨rfl, ⟨o, rfl⟩ | ⟨d, rfl⟩⟩ := hover
    · rfl
    · rfl
  · obtain ⟨taken, rest, y, put, t, htop, hcourse, hstep, -⟩ :=
      exists_course (List.append_nil c.stack).symm hover
    rw [List.append_nil] at hstep
    exact .inr ⟨taken, rest, y, put, t, htop, hcourse, hstep⟩

/-- A step keeps what holds of the control and of each part of the stack, if it does so in every way
of going on. -/
theorem forall_step {P : Control → Prop} {Q : Continuation → Prop} (hcontrol : P c.control)
    (hstack : ∀ p ∈ c.stack, Q p)
    (hkeeps : ∀ taken y put, Course c.session c.control taken y put → (∀ p ∈ taken, Q p) →
      (∀ fn, fn ∈ c.control.functions ∨ fn ∈ Stack.functions taken → c.Holds fn) →
      P y ∧ ∀ p ∈ put, Q p) :
    P c.step.control ∧ ∀ p ∈ c.step.stack, Q p := by
  rcases step_cases c with ⟨-, hsame⟩ | ⟨taken, k, y, put, t, htaken, hcourse, hstep⟩
  · rw [hsame]
    exact ⟨hcontrol, hstack⟩
  · obtain ⟨hfirst, hk⟩ := List.forall_mem_append.1 (htaken ▸ hstack)
    obtain ⟨hy, hput⟩ := hkeeps taken y put hcourse hfirst fun fn => holds_of_taken htaken
    rw [hstep]
    exact ⟨hy, List.forall_mem_append.2 ⟨hput, hk⟩⟩

end Configuration

end Script
