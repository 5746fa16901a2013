import Script.Machine.Run

/-!
# Hosts and their requests

A host drives an interpreter by requests: chunks of a program, single statements and expressions,
names to look up, and changes of its settings. In between it keeps the values it was given.

- `Request`, `Reply`, `Session.answer`: what a host asks, and what it is answered.
- `answer_eq`: an answer is the end of a run of the machine, or needs no run.
- `Configuration.after`: the machine after some steps; `run_eq_after` ties it to whole runs.
- `Session.Reached`, `Moment`: the states of an interpreter between requests, and while it runs.
-/

namespace Script

/-! ## Requests -/

/-- What a host can ask of an interpreter. -/
inductive Request
  /-- Run a chunk of a program. -/
  | interpret (program : Program)
  /-- Execute a statement. -/
  | exec (st : Stmt)
  /-- Evaluate an expression; the host keeps the value. -/
  | eval (e : Expr)
  /-- Look up a name; the host keeps the value. -/
  | lookup (name : String)
  /-- Begin again without variables, under a rule for defining a name twice. -/
  | setPolicy (policy : Policy)
  /-- Limit the nesting of calls. -/
  | setMaxDepth (depth : Nat)
  /-- Let go of one of the functions that the host keeps. -/
  | drop (index : Nat)

/-- What a host is answered. -/
inductive Reply
  | ended (r : Except Diagnostic Unit)
  | value (r : Except Diagnostic Value)
  | found (v : Option Value)
  | done

namespace Session

/-- The session after the host was given a value, if any. -/
def keep (s : Session) : Option Value → Session
  | some v => s.hold v
  | none => s

/-- The session after the host has let go of a function. -/
def letGoOf (s : Session) (index : Nat) : Session := { s with host := s.host.eraseIdx index }

/-- Answers a request, if its run ends within `steps` steps. -/
def answer (steps : Nat) (s : Session) : Request → Option (Reply × Session)
  | .interpret program => (s.interpret steps program).map fun (r, s) => (.ended r, s)
  | .exec st => (s.exec steps st).map fun (r, s) => (.ended r, s)
  | .eval e => (s.eval steps e).map fun (r, s) => (.value r, s.keep r.toOption)
  | .lookup name => some (.found (s.lookup name), s.keep (s.lookup name))
  | .setPolicy policy => some (.done, s.withPolicy policy)
  | .setMaxDepth depth => some (.done, s.withMaxDepth depth)
  | .drop index => some (.done, s.letGoOf index)

end Session

/-! ## Answers as runs -/

namespace Request

/-- Where the machine starts for a request. Looking up and setting up need no run, nor does a
statement while a jump is pending. -/
def start (s : Session) : Request → Option Configuration
  | .interpret program => some ⟨.done .normal, [.sequence program], { s with pending := .normal }⟩
  | .exec st => if s.pending.isNormal then some ⟨.exec st, [], s⟩ else none
  | .eval e => some ⟨.eval e, [], s⟩
  | _ => none

/-- The answer at the end of a run. -/
def finish (r : Except Diagnostic Outcome) (s : Session) : Request → Reply × Session
  | .eval _ => (.value (r.map Outcome.asValue), s.keep (r.map Outcome.asValue).toOption)
  | .exec _ =>
    (.ended (r.map fun _ => ()),
      match r with
      | .ok o => { s with pending := o.asSignal }
      | .error _ => s)
  | _ => (.ended (r.map fun _ => ()), { s with pending := .normal })

/-- The answer to a request that needs no run. -/
def atOnce (s : Session) : Request → Reply × Session
  | .lookup name => (.found (s.lookup name), s.keep (s.lookup name))
  | .setPolicy policy => (.done, s.withPolicy policy)
  | .setMaxDepth depth => (.done, s.withMaxDepth depth)
  | .drop index => (.done, s.letGoOf index)
  | _ => (.ended (.ok ()), s)

/-- An answer is the end of a run, or needs none. -/
theorem answer_eq (steps : Nat) (s : Session) (r : Request) :
    s.answer steps r =
      match r.start s with
      | some c => (c.run steps).map fun (e, s) => r.finish e s
      | none => some (r.atOnce s) := by
  cases r with
  | interpret program =>
    show (Option.map _ (Option.map _ _)) = _
    rw [Option.map_map]
    rfl
  | exec st =>
    show Option.map _ (s.exec steps st) = _
    cases h : s.pending.isNormal with
    | false =>
      simp only [Session.exec, start, h]
      rfl
    | true =>
      simp only [Session.exec, start, h, if_true, Option.map_map]
      refine congrArg (fun f => Option.map f _) (funext fun ⟨e, s⟩ => ?_)
      cases e <;> rfl
  | eval e =>
    show (Option.map _ (Option.map _ _)) = _
    rw [Option.map_map]
    rfl
  | lookup name => rfl
  | setPolicy policy => rfl
  | setMaxDepth depth => rfl
  | drop index => rfl

/-- An answer comes at the end of a run or at once. -/
theorem answer_cases {steps : Nat} {s s' : Session} {r : Request} {reply : Reply}
    (h : s.answer steps r = some (reply, s')) :
    (∃ c e t, r.start s = some c ∧ c.run steps = some (e, t) ∧ (reply, s') = r.finish e t) ∨
      r.start s = none ∧ (reply, s') = r.atOnce s := by
  rw [answer_eq] at h
  cases hstart : r.start s with
  | none =>
    rw [hstart] at h
    exact .inr ⟨rfl, (Option.some.inj h).symm⟩
  | some c =>
    rw [hstart] at h
    obtain ⟨⟨e, t⟩, hrun, hfinish⟩ := Option.map_eq_some_iff.1 h
    exact .inl ⟨c, e, t, rfl, hrun, hfinish.symm⟩

/-- The number of the first function among the variables there are after a request. -/
def since (s : Session) (n : Nat) : Request → Nat
  | .setPolicy _ => s.arena.nextFunction
  | _ => n

end Request

/-! ## Moments -/

namespace Configuration

/-- The configuration after a number of steps. -/
def after : Nat → Configuration → Configuration
  | 0, c => c
  | n + 1, c => after n c.step

theorem after_succ (n : Nat) (c : Configuration) : c.after (n + 1) = c.step.after n := rfl

/-- The last step may be split off as well as the first. -/
theorem after_succ_eq_step (n : Nat) (c : Configuration) : c.after (n + 1) = (c.after n).step := by
  induction n generalizing c with
  | zero => rfl
  | succ n ih =>
    rw [after_succ, ih, ← after_succ]

/-- What one step keeps, any number of steps keeps. -/
theorem after_induction {P : Configuration → Prop} (hstep : ∀ c, P c → P c.step)
    {c : Configuration} (h : P c) (n : Nat) : P (c.after n) := by
  induction n generalizing c with
  | zero => exact h
  | succ n ih => exact ih (hstep c h)

/-- A configuration that has ended stays as it is. -/
theorem step_of_ended {c : Configuration} (h : c.ended?.isSome = true) : c.step = c := by
  obtain ⟨control, stack, s⟩ := c
  cases stack with
  | nil => cases control <;> simp [ended?, step] at h ⊢
  | cons p k => cases control <;> simp [ended?] at h

/-- A run of at most `n` steps ends as the configuration after `n` steps has ended. -/
theorem run_eq_after (n : Nat) (c : Configuration) : c.run n = (c.after n).ended? := by
  induction n generalizing c with
  | zero => rfl
  | succ n ih =>
    -- a run stops as soon as it has ended; further steps would change nothing
    cases hended : c.ended? with
    | none => rw [run_succ hended, ih, after_succ]
    | some r =>
      rw [after_succ, step_of_ended (by rw [hended]; rfl), ← ih, run_of_ended hended,
        run_of_ended hended]

/-- What a configuration has ended with is an outcome or a failure, with nothing left to do. -/
theorem ended?_eq_some {c : Configuration} {e : Except Diagnostic Outcome} {s : Session}
    (h : c.ended? = some (e, s)) :
    (∃ o, e = .ok o ∧ c = ⟨.done o, [], s⟩) ∨ ∃ d, e = .error d ∧ c = ⟨.failed d, [], s⟩ := by
  obtain ⟨control, stack, t⟩ := c
  cases stack with
  | nil =>
    cases control with
    | done o =>
      obtain ⟨rfl, rfl⟩ := Prod.mk.inj (Option.some.inj h)
      exact .inl ⟨o, rfl, rfl⟩
    | failed d =>
      obtain ⟨rfl, rfl⟩ := Prod.mk.inj (Option.some.inj h)
      exact .inr ⟨d, rfl, rfl⟩
    | eval e => cases h
    | exec st => cases h
  | cons p k => cases control <;> cases h

/-- A run that ends does so after some steps, with nothing left to do. -/
theorem after_of_run {n : Nat} {c : Configuration} {e : Except Diagnostic Outcome} {s : Session}
    (hrun : c.run n = some (e, s)) : (c.after n).session = s ∧ (c.after n).stack = [] := by
  rw [run_eq_after] at hrun
  rcases ended?_eq_some hrun with ⟨o, -, hc⟩ | ⟨d, -, hc⟩
  · rw [hc]
    exact ⟨rfl, rfl⟩
  · rw [hc]
    exact ⟨rfl, rfl⟩

end Configuration

/-- A host can bring an interpreter into the state `s`, in which the functions made since its
variables were last reset are numbered from `since` on. -/
inductive Session.Reached : Nat → Session → Prop
  | new (sink : Sink) : Reached 0 (.new sink)
  | answer {since steps : Nat} {s s' : Session} {r : Request} {reply : Reply} :
    Reached since s → s.answer steps r = some (reply, s') → Reached (r.since s since) s'

/-- The machine is in the configuration `c` at some moment while an interpreter answers a
request. -/
def Moment (since : Nat) (c : Configuration) : Prop :=
  ∃ (s : Session) (r : Request) (first : Configuration) (n : Nat),
    Session.Reached since s ∧ r.start s = some first ∧ c = first.after n

end Script
