import Script.Arena.Basic
import Script.Diagnostic

/-!
# Variables

One rule says which variable a name means: the one in the innermost frame that binds it, counted
from the current scope outwards.

- `Arena.get?`: the value of a name.
- `Arena.owner?`: the frame whose variable a name means.
- `Arena.put`: a variable of a given frame.
- `Arena.define`: a variable in the innermost frame.
- `Arena.assign`: a new value for a variable that exists.
-/

namespace Script.Arena

/-- The value of a name. -/
def get? (a : Arena) (name : String) : Option Value :=
  (a.chain a.current).findSome? fun link => link.2.get? name

/-- The frame whose variable a name means. -/
def owner? (a : Arena) (name : String) : Option Handle :=
  ((a.chain a.current).find? fun link => link.2.binds name).map (·.1)

/-- Gives a variable of the frame that `h` names a value. -/
def put (a : Arena) (h : Handle) (name : String) (v : Value) : Arena :=
  a.updateFrame h fun f => f.put name v

/-- Binds a name in the innermost frame, or says why it cannot be bound. -/
def define (a : Arena) (name : String) (v : Value) : Arena × Option Fault :=
  match a.frame? a.current with
  | none => (a, some (.undefined name))
  | some f =>
    if a.policy = .strict && f.binds name then (a, some (.redefined name))
    else (a.put a.current name v, none)

/-- Gives the variable that a name means a new value, or says that there is none. -/
def assign (a : Arena) (name : String) (v : Value) : Arena × Option Fault :=
  match a.owner? name with
  | none => (a, some (.undefined name))
  | some h => (a.put h name v, none)

end Script.Arena
