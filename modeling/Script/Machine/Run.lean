import Script.Machine.Step

/-!
# Running programs

A program need not end, so every run is given a number of steps; `none` says that they did not
suffice.

- `Configuration.ended?`, `Configuration.run`: the end of a configuration, and the way there.
- `Session.interpret`, `Session.exec`, `Session.execEach`, `Session.eval`: run a chunk, a statement,
  statements one by one, or an expression in a session.
- `Configuration.run_mono`: a run that has ended is not changed by more steps.
-/

namespace Script

namespace Configuration

/-- What a configuration has ended with, if nothing remains to be done. -/
def ended? : Configuration → Option (Except Diagnostic Outcome × Session)
  | ⟨.done o, [], s⟩ => some (.ok o, s)
  | ⟨.failed d, [], s⟩ => some (.error d, s)
  | _ => none

/-- Runs a configuration to its end, which takes at most `steps` steps. -/
def run : Nat → Configuration → Option (Except Diagnostic Outcome × Session)
  | 0, c => c.ended?
  | steps + 1, c =>
    match c.ended? with
    | some r => some r
    | none => run steps c.step

@[simp] theorem run_zero (c : Configuration) : run 0 c = c.ended? := rfl

theorem run_of_ended {c : Configuration} {r : Except Diagnostic Outcome × Session}
    (h : c.ended? = some r) (steps : Nat) : run steps c = some r := by
  cases steps <;> simp [run, h]

theorem run_succ {c : Configuration} (h : c.ended? = none) (steps : Nat) :
    run (steps + 1) c = run steps c.step := by
  simp [run, h]

/-- A run that ends within some number of steps ends in the same way within any larger number. -/
theorem run_mono {n m : Nat} {c : Configuration} {r : Except Diagnostic Outcome × Session}
    (h : run n c = some r) (le : n ≤ m) : run m c = some r := by
  induction n generalizing m c with
  | zero => exact run_of_ended h m
  | succ n ih =>
    cases final : c.ended? with
    | some r' =>
      rw [run_of_ended final] at h ⊢
      exact h
    | none =>
      obtain ⟨m, rfl⟩ : ∃ k, m = k + 1 := ⟨m - 1, by omega⟩
      rw [run_succ final] at h ⊢
      exact ih h (by omega)

end Configuration

namespace Session

/-- Runs a chunk of a program. A jump left over from an earlier chunk is forgotten first, and one
that this chunk ends with afterwards. -/
def interpret (steps : Nat) (program : Program) (s : Session) :
    Option (Except Diagnostic Unit × Session) :=
  let c : Configuration := ⟨.done .normal, [.sequence program], { s with pending := .normal }⟩
  (c.run steps).map fun (r, s) => (r.map fun _ => (), { s with pending := .normal })

/-- Executes a statement, unless a jump is pending. A jump that the statement ends with is pending
afterwards. -/
def exec (steps : Nat) (st : Stmt) (s : Session) : Option (Except Diagnostic Unit × Session) :=
  if s.pending.isNormal then
    let c : Configuration := ⟨.exec st, [], s⟩
    (c.run steps).map fun
      | (.ok o, s) => (.ok (), { s with pending := o.asSignal })
      | (.error d, s) => (.error d, s)
  else some (.ok (), s)

/-- Executes statements one by one, up to the first that fails. -/
def execEach (steps : Nat) : List Stmt → Session → Option (Except Diagnostic Unit × Session)
  | [], s => some (.ok (), s)
  | st :: rest, s =>
    match s.exec steps st with
    | some (.ok _, s) => execEach steps rest s
    | ended => ended

/-- Evaluates an expression, whether or not a jump is pending. -/
def eval (steps : Nat) (e : Expr) (s : Session) : Option (Except Diagnostic Value × Session) :=
  let c : Configuration := ⟨.eval e, [], s⟩
  (c.run steps).map fun (r, s) => (r.map Outcome.asValue, s)

end Session

end Script
