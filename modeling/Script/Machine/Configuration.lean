import Script.Session

/-!
# Configurations of the machine

A running program is a point of control, a stack of what remains to be done, and a session. The
stack is part of the data, so a program may nest as deeply as its limits allow.

- `Outcome`: what evaluating an expression or executing a statement ends with.
- `Control`: what is being done at the moment.
- `Continuation`: one thing that remains to be done once an outcome is there.
- `Configuration`: control, stack and session; `Configuration.functions` lists the functions that
  are held outside the frames.
-/

namespace Script

/-! ## Outcomes -/

/-- The end of an expression, which has a value, or of a statement, which may be a jump. -/
inductive Outcome
  | value (v : Value)
  | signal (s : Signal)
  deriving Inhabited

namespace Outcome

/-- A statement that ended by itself. -/
def normal : Outcome := .signal .normal

/-- An outcome as the value of an expression or call: the value returned, else `nil`. -/
def asValue : Outcome → Value
  | value v => v
  | signal (.returned v) => v
  | signal _ => .nil

/-- An outcome as the end of a statement: a value is no jump. -/
def asSignal : Outcome → Signal
  | value _ => .normal
  | signal s => s

/-- The functions that an outcome carries. -/
def functions : Outcome → List Closure
  | value v => v.functions
  | signal s => s.functions

end Outcome

/-! ## Control and stack -/

/-- What is being done at the moment. -/
inductive Control
  /-- An expression is to be evaluated. -/
  | eval (e : Expr)
  /-- A statement is to be executed. -/
  | exec (s : Stmt)
  /-- Something has ended. -/
  | done (o : Outcome)
  /-- Something has failed. -/
  | failed (d : Diagnostic)

/-- What remains to be done once what it waits for has ended. -/
inductive Continuation
  /-- The value of an assignment. -/
  | assign (name : String) (pos : Position)
  /-- The operand of an operator. -/
  | unary (op : UnaryOp) (pos : Position)
  /-- The left operand, with the right one to follow. -/
  | binaryLeft (op : BinaryOp) (right : Expr) (pos : Position)
  /-- The right operand. -/
  | binaryRight (op : BinaryOp) (left : Value) (pos : Position)
  /-- The left operand, which may decide. -/
  | logicalLeft (op : LogicalOp) (right : Expr)
  /-- The right operand. The left one has not decided and is held until the end. -/
  | logicalRight (left : Value)
  /-- The callee, with the arguments to follow. -/
  | callee (args : List Expr) (pos : Position)
  /-- An argument, behind the arguments `before`, latest first, and before the arguments `after`. -/
  | argument (callee : Value) (before : List Value) (after : List Expr) (pos : Position)
  /-- The value of an expression that is a statement. -/
  | discard
  /-- The value to be printed. -/
  | print (pos : Position)
  /-- The value of a new variable. -/
  | define (name : String) (pos : Position)
  /-- The condition of a conditional statement. -/
  | branch (whenTrue : Stmt) (whenFalse : Option Stmt)
  /-- The condition of a loop. -/
  | loopTest (condition : Expr) (body : Stmt) (increment : Option Expr)
  /-- The body of a loop. -/
  | loopBody (condition : Expr) (body : Stmt) (increment : Option Expr)
  /-- The increment of a loop. -/
  | loopNext (condition : Expr) (body : Stmt) (increment : Option Expr)
  /-- The value to be returned. -/
  | giveBack
  /-- A statement, with the statements `rest` to follow. -/
  | sequence (rest : List Stmt)
  /-- The statements of a block that runs in `frame`, entered from `caller`. -/
  | leaveBlock (frame caller : Handle)
  /-- The body of `callee`, which runs in `frame` and was called from `caller`. -/
  | leaveCall (callee : Closure) (frame caller : Handle)

/-- The functions that a part of the stack holds. -/
def Continuation.functions : Continuation → List Closure
  | .binaryRight _ left _ => left.functions
  | .logicalRight left => left.functions
  | .argument f before _ _ => f.functions ++ before.flatMap Value.functions
  | .leaveCall f _ _ => [f]
  | _ => []

/-- The functions that a control holds. -/
def Control.functions : Control → List Closure
  | done o => o.functions
  | _ => []

/-- What remains to be done, the next in front. -/
abbrev Stack := List Continuation

/-- The functions that a stack holds. -/
def Stack.functions (k : Stack) : List Closure := k.flatMap Continuation.functions

/-! ## Configurations -/

/-- A state of the machine. -/
structure Configuration where
  control : Control
  stack : Stack
  session : Session

/-- The functions that are held outside the frames. -/
def Configuration.functions (c : Configuration) : List Closure :=
  c.control.functions ++ (c.stack.functions ++ c.session.held)

end Script
