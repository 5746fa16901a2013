import Script.Proofs.Machine.Balance
import Script.Proofs.Machine.Renaming
import Script.Proofs.Session.Soundness

/-!
# Execution is balanced

Whether an expression, a statement or a chunk of a program ends by itself, by a jump or by a
failure, the interpreter stands afterwards where it stood before. Pending jumps are not looked at
while expressions are evaluated.

- `standing_eval`, `standing_exec`, `standing_reached`: where an interpreter stands afterwards.
- `Configuration.suspended`: an interpreter in the middle of a run.
- `SameButFrames`: two evaluations end with the same up to the names of frames.
- `eval_ignores_pending`: the pending jump has no influence on an evaluation.
- `execution_is_balanced`: all of this together.
-/

namespace Script

namespace Session

variable {s t : Session} {since steps : Nat} {r : Request}

/-! ## Where an interpreter stands afterwards -/

theorem standing_eval {e : Expr} {res : Except Diagnostic Value}
    (h : s.eval steps e = some (res, t)) : t.standing = s.standing ∧ t.pending = s.pending := by
  obtain ⟨⟨end_, u⟩, hrun, hpair⟩ := Option.map_eq_some_iff.1 h
  obtain ⟨-, rfl⟩ := Prod.mk.inj hpair
  exact ⟨Configuration.standing_run hrun, (Configuration.settings_run hrun).pending⟩

/-- A statement is not executed while a jump is pending. -/
theorem exec_of_pending {st : Stmt} (h : s.pending.isNormal = false) :
    s.exec steps st = some (.ok (), s) := by
  simp [exec, h]

theorem eq_normal_of_isNormal {signal : Signal} (h : signal.isNormal = true) :
    signal = .normal := by
  cases signal <;> first | rfl | cases h

theorem standing_exec {st : Stmt} {res : Except Diagnostic Unit}
    (h : s.exec steps st = some (res, t)) :
    t.standing = s.standing ∧ ∀ d, res = .error d → t.pending = .normal := by
  cases hpending : s.pending.isNormal with
  | false =>
    rw [exec_of_pending hpending] at h
    obtain ⟨rfl, rfl⟩ := Prod.mk.inj (Option.some.inj h)
    exact ⟨rfl, fun d hd => nomatch hd⟩
  | true =>
    unfold exec at h
    rw [if_pos hpending] at h
    obtain ⟨⟨end_, u⟩, hrun, hpair⟩ := Option.map_eq_some_iff.1 h
    have hstanding : u.standing = s.standing := Configuration.standing_run hrun
    cases end_ with
    | ok o =>
      obtain ⟨rfl, rfl⟩ := Prod.mk.inj hpair
      exact ⟨hstanding, fun d hd => nomatch hd⟩
    | error d =>
      obtain ⟨rfl, rfl⟩ := Prod.mk.inj hpair
      refine ⟨hstanding, fun _ _ => ?_⟩
      exact (Configuration.settings_run hrun).pending.trans (eq_normal_of_isNormal hpending)

theorem standing_interpret {program : Program} {res : Except Diagnostic Unit}
    (h : s.interpret steps program = some (res, t)) :
    t.standing = s.standing ∧ t.pending = .normal := by
  obtain ⟨⟨end_, u⟩, hrun, hpair⟩ := Option.map_eq_some_iff.1 h
  obtain ⟨-, rfl⟩ := Prod.mk.inj hpair
  exact ⟨Configuration.standing_run hrun, rfl⟩

theorem standing_keep (s : Session) (v : Option Value) : (s.keep v).standing = s.standing := by
  cases v <;> rfl

/-- The machine starts on a request where the session stands. -/
theorem restores_start {c : Configuration} (h : r.start s = some c) :
    c.restores (Stack.scopes c.stack) = s.standing := by
  cases r with
  | interpret program =>
    obtain rfl := Option.some.inj h
    rfl
  | exec st =>
    simp only [Request.start] at h
    split at h
    · obtain rfl := Option.some.inj h
      rfl
    · cases h
  | eval e =>
    obtain rfl := Option.some.inj h
    rfl
  | lookup name => cases h
  | setPolicy policy => cases h
  | setMaxDepth depth => cases h
  | drop index => cases h

/-- An interpreter that answers requests stands at top level, with no frame active and no call in
progress. -/
theorem standing_reached (h : Reached since s) : s.standing = ⟨Arena.global, [], 0⟩ := by
  induction h with
  | new sink => rfl
  | @answer since steps s t r reply _ hanswer ih =>
    rcases Request.answer_cases hanswer with ⟨c, e, u, hstart, hrun, hfinish⟩ | ⟨-, hatOnce⟩
    · obtain rfl : t = (r.finish e u).2 := congrArg Prod.snd hfinish
      have hu : u.standing = ⟨Arena.global, [], 0⟩ :=
        ((Configuration.standing_run hrun).trans (restores_start hstart)).trans ih
      cases r with
      | exec st => cases e <;> exact hu
      | eval ex => exact (standing_keep ..).trans hu
      | _ => exact hu
    · obtain rfl : t = (r.atOnce s).2 := congrArg Prod.snd hatOnce
      cases r with
      | lookup name => exact (standing_keep ..).trans ih
      | setPolicy policy =>
        have hdepth : s.depth = 0 := congrArg Standing.depth ih
        exact congrArg (Standing.mk Arena.global []) hdepth
      | _ => exact ih

end Session

/-! ## Pending jumps -/

/-- An interpreter in the middle of a run: what the unfinished expressions and calls hold counts as
held by the host. -/
def Configuration.suspended (c : Configuration) : Session :=
  { c.session with
    host := c.control.functions ++ (Stack.functions c.stack ++ c.session.host) }

/-- The functions that an interpreter in the middle of a run holds besides the pending jump. -/
def Configuration.Keeps (since : Nat) (c : Configuration) (fn : Closure) : Prop :=
  c.Holds fn ∨ fn ∈ c.session.host ∧ since ≤ fn.identity

/-- Two evaluations have ended with the same, up to the names of frames: the frames of both are
found in one arena, in which the functions `kept` captured the same frames, names have the same
values, and the results are the same. -/
def SameButFrames (kept : Closure → Prop) (r r' : Except Diagnostic Value × Session) : Prop :=
  r.2.sink = r'.2.sink ∧
    ∃ (φ ψ : Handle → Handle) (b : Arena),
      r.2.arena.Embeds φ b ∧ r'.2.arena.Embeds ψ b ∧
        (∀ fn, kept fn → φ fn.captured = ψ fn.captured) ∧
        (∀ name, (r.2.lookup name).map (Value.rename φ) = (r'.2.lookup name).map (Value.rename ψ)) ∧
        r.1.map (Value.rename φ) = r'.1.map (Value.rename ψ)

variable {since : Nat} {c : Configuration}

/-- An expression can be evaluated at any moment, whatever jump is pending. -/
theorem sound_suspended (h : Moment since c) (pending : Signal) (e : Expr) :
    Configuration.Sound since (c.Keeps since)
      ⟨.eval e, [], { c.suspended with pending := pending }⟩ := by
  have hsound := sound_moment h
  refine ⟨hsound.arena.mono fun fn hfn => .inl ?_, ?_, fun fn hfn => ?_⟩
  · rcases hfn with (hfn | hfn) | hfn | hfn
    · cases hfn
    · cases hfn
    · exact .inl hfn
    · exact .inr ⟨List.mem_append_right _ hfn.1, hfn.2⟩
  · show Nested [] c.session.arena.current c.session.arena.active
    rw [hsound.scopes.current_eq]
    exact .base
  · refine List.mem_append_right _ ?_
    show fn ∈ c.control.functions ++ (Stack.functions c.stack ++ c.session.host)
    rw [List.mem_append, List.mem_append, ← or_assoc]
    exact hfn.imp id fun hfn => hfn.1

/-- The pending jump has no influence on the evaluation of an expression: neither on what is written
on the way, nor on what it ends with. -/
theorem eval_ignores_pending (h : Moment since c) (p q : Signal) (e : Expr) :
    (∀ n,
      ((⟨.eval e, [], { c.suspended with pending := p }⟩ : Configuration).after n).session.sink =
      ((⟨.eval e, [], { c.suspended with pending := q }⟩ : Configuration).after n).session.sink) ∧
    ∀ steps, Option.Rel (SameButFrames (c.Keeps since))
      ({ c.suspended with pending := p }.eval steps e)
      ({ c.suspended with pending := q }.eval steps e) := by
  -- both are compared with the run over an arena that keeps every frame
  have htracks : ∀ pending, Configuration.Tracks (c.Keeps since) id
      ⟨.eval e, [], { c.suspended with pending := pending }⟩
      ⟨.eval e, [], c.suspended.keeping⟩ := fun pending =>
    Configuration.Embeds.tracks ⟨rfl, rfl,
      ⟨Arena.embeds_keeping (sound_moment h).arena.tidy, rfl, rfl, rfl⟩⟩
  have hp := sound_suspended h p e
  have hq := sound_suspended h q e
  have hkeeping : Configuration.Sound since (c.Keeps since) ⟨.eval e, [], c.suspended.keeping⟩ :=
    (sound_suspended h c.session.pending e).keeping
  refine ⟨fun n => ?_, fun steps => ?_⟩
  · obtain ⟨φ, hφ, -⟩ := (htracks p).after hp hkeeping n
    obtain ⟨ψ, hψ, -⟩ := (htracks q).after hq hkeeping n
    exact hφ.session.sink.symm.trans hψ.session.sink
  · obtain ⟨φ, hφ, hagree⟩ := (htracks p).run hp hkeeping steps
    obtain ⟨ψ, hψ, hagree'⟩ := (htracks q).run hq hkeeping steps
    show Option.Rel _ (Option.map _ (Configuration.run steps _))
      (Option.map _ (Configuration.run steps _))
    -- the run in the middle is the same for both, so either all three end or none does
    generalize hb : Configuration.run steps ⟨.eval e, [], c.suspended.keeping⟩ = b at hφ hψ
    rcases rel_cases hφ with ⟨hx, rfl⟩ | ⟨⟨r, s⟩, ⟨r', u⟩, hx, rfl, hend⟩
    · rcases rel_cases hψ with ⟨hy, -⟩ | ⟨_, _, -, hz, -⟩
      · rw [hx, hy]
        exact .none
      · cases hz
    · rcases rel_cases hψ with ⟨-, hz⟩ | ⟨⟨r'', t⟩, z, hy, hz, hend'⟩
      · cases hz
      · obtain rfl := Option.some.inj hz
        rw [hx, hy]
        have hs := (hp.run hx).1
        have ht := (hq.run hy).1
        refine .some ⟨hend.session.sink.symm.trans hend'.session.sink, φ, ψ, u.arena,
          hend.session.arena, hend'.session.arena,
          fun fn hfn => (hagree fn hfn).trans (hagree' fn hfn).symm, fun name => ?_, ?_⟩
        · exact (hend.session.arena.get? hs name).symm.trans (hend'.session.arena.get? ht name)
        · show (r.map _).map _ = (r''.map _).map _
          rw [Outcome.map_asValue_rename, Outcome.map_asValue_rename, ← hend.outcome,
            ← hend'.outcome]

/-! ## Balance -/

/-- **Execution is balanced.** Evaluating an expression or executing a statement in any session
whatever, or nested in any run, leaves the innermost scope, the active frames and the depth of calls
as they were, whether it succeeds or fails. Evaluating leaves the pending jump alone and does not
depend on it; executing does nothing while a jump is pending, and leaves none behind a failure.
After a chunk of a program nothing is active and no jump is pending. -/
theorem execution_is_balanced :
    (∀ s t steps e r, Session.eval steps e s = some (r, t) →
      t.standing = s.standing ∧ t.pending = s.pending) ∧
    (∀ s t steps st r, Session.exec steps st s = some (r, t) →
      t.standing = s.standing ∧ ∀ d, r = .error d → t.pending = .normal) ∧
    (∀ s steps st, s.pending.isNormal = false → Session.exec steps st s = some (.ok (), s)) ∧
    (∀ (c : Configuration) (n : Nat), (∀ m < n, ¬ (c.after m).IsOver c.stack) →
      (c.after n).IsOver c.stack → (c.after n).session.standing = c.session.standing) ∧
    (∀ since c, Moment since c → ∀ (p q : Signal) (e : Expr),
      (∀ n,
        ((⟨.eval e, [], { c.suspended with pending := p }⟩ : Configuration).after n).session.sink =
        ((⟨.eval e, [], { c.suspended with pending := q }⟩ : Configuration).after n).session.sink) ∧
      ∀ steps, Option.Rel (SameButFrames (c.Keeps since))
        ({ c.suspended with pending := p }.eval steps e)
        ({ c.suspended with pending := q }.eval steps e)) ∧
    (∀ since s t steps program r, Session.Reached since s →
      s.interpret steps program = some (r, t) →
        t.standing = ⟨Arena.global, [], 0⟩ ∧ t.pending = .normal) := by
  refine ⟨?_, ?_, ?_, ?_, ?_, ?_⟩
  · intro s t steps e r h
    exact Session.standing_eval h
  · intro s t steps st r h
    exact Session.standing_exec h
  · intro s steps st h
    exact Session.exec_of_pending h
  · intro c n hbusy hover
    have hstack : c.stack = [] ++ c.stack := rfl
    exact Configuration.standing_after n hstack hbusy hover.1
  · intro since c h p q e
    exact eval_ignores_pending h p q e
  · intro since s t steps program r hs h
    obtain ⟨hstanding, hpending⟩ := Session.standing_interpret h
    exact ⟨hstanding.trans (Session.standing_reached hs), hpending⟩

/-- A block in which a call fails at its parameters. -/
def failsInCall : Program :=
  [.block
    [.function ⟨"f", [⟨"a", .start⟩, ⟨"a", .start⟩], [], .start⟩,
      .expression (.call (.ident "f" .start) [.literal .nil .start, .literal .nil .start] .start)]]

/-- The failure leaves the call and the block. -/
theorem execution_is_balanced_failsInCall :
    ∃ d t, (Session.new (.new none)).interpret 20 failsInCall = some (.error d, t) ∧
      t.standing = ⟨Arena.global, [], 0⟩ ∧ t.pending = .normal := by
  have hfails : ((Session.new (.new none)).interpret 20 failsInCall).map (·.1.toOption) =
      some none := by decide +kernel
  obtain ⟨-, -, -, -, -, hinterpret⟩ := execution_is_balanced
  obtain ⟨⟨r, t⟩, hrun, hr⟩ := Option.map_eq_some_iff.1 hfails
  cases r with
  | ok => cases hr
  | error d => exact ⟨d, t, hrun, hinterpret 0 _ t 20 failsInCall _ (.new _) hrun⟩

end Script
