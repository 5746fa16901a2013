import Script.Arena.Binding
import Script.Arena.Collect
import Script.Sink

/-!
# Sessions

A session is an interpreter that runs one chunk of a program after another over the same variables
and the same sink.

- `Signal`: the jump that a statement ended with and that no loop or call has taken up yet.
- `Session`: variables, sink, pending jump, and nesting of calls.
- `Session.withPolicy`, `Session.withMaxDepth`, `Session.keeping`: how it is set up.
- `Session.hold`, `Session.letGo`: the functions that the host keeps between chunks.
-/

namespace Script

/-! ## Jumps -/

/-- How a statement ends: by itself, or by a jump on its way to the loop or call it ends. -/
inductive Signal
  | normal
  | exitLoop
  | nextIteration
  | returned (v : Value)
  deriving Inhabited

namespace Signal

/-- Whether a statement ended by itself. -/
def isNormal : Signal → Bool
  | normal => true
  | _ => false

/-- The functions that a jump carries. -/
def functions : Signal → List Closure
  | returned v => v.functions
  | _ => []

end Signal

/-! ## Sessions -/

/-- The deepest nesting of calls unless a session sets another. -/
def defaultMaxDepth : Nat := 10000

/-- The state of an interpreter between two chunks, and while it runs one. -/
structure Session where
  arena : Arena
  sink : Sink
  /-- The jump that the last chunk ended with. -/
  pending : Signal
  /-- The number of calls in progress. -/
  depth : Nat
  /-- The number of calls that can be in progress at once. -/
  maxDepth : Nat
  /-- The functions that the host holds. -/
  host : List Closure

namespace Session

/-- A session without variables. -/
def new (sink : Sink) : Session where
  arena := .new .strict 0
  sink := sink
  pending := .normal
  depth := 0
  maxDepth := defaultMaxDepth
  host := []

/-- The session with another rule for defining a name twice, and without its variables. -/
def withPolicy (s : Session) (policy : Policy) : Session :=
  { s with
    arena := { Arena.new policy s.arena.nextFunction with reclaims := s.arena.reclaims } }

/-- The session over an arena that frees no frame from now on. -/
def keeping (s : Session) : Session := { s with arena := s.arena.keeping }

/-- The session with another limit on the nesting of calls. -/
def withMaxDepth (s : Session) (depth : Nat) : Session := { s with maxDepth := depth }

/-- The rule for defining a name twice. -/
def policy (s : Session) : Policy := s.arena.policy

/-- The value of a name at top level. -/
def lookup (s : Session) (name : String) : Option Value := s.arena.get? name

/-- Makes the host keep the functions in a value. -/
def hold (s : Session) (v : Value) : Session := { s with host := v.functions ++ s.host }

/-- Makes the host let go of everything it keeps. -/
def letGo (s : Session) : Session := { s with host := [] }

/-- The functions held by the session itself outside its frames. -/
def held (s : Session) : List Closure := s.pending.functions ++ s.host

end Session

end Script
