import Script.Proofs.Machine.Recasting
import Script.Proofs.Session.SinkLimit

/-!
# The rules for defining a name twice

The strict rule refuses what the permissive one allows, and that is all the difference it makes. Up
to a definition that is refused, a run under the strict rule is the run under the permissive rule.

- `Session.permitting`, `Configuration.permitting`: the same state under the permissive rule.
- `after_permitting`: runs are the same as long as nothing has been refused.
- `PartsAt`, `policies_agree_unless_refused`: where runs under the two rules part.
-/

namespace Script

/-! ## The same state under the permissive rule -/

/-- The session under the permissive rule, with the same variables and the same output. -/
def Session.permitting (s : Session) : Session :=
  { s with arena := { s.arena with policy := .permissive } }

namespace Configuration

/-- The configuration under the permissive rule. -/
def permitting (c : Configuration) : Configuration := { c with session := c.session.permitting }

variable {c strict permissive : Configuration} {n : Nat}

theorem recast_permitting (c : Configuration) : c.recast .permitting = c.permitting := by
  obtain ⟨control, k, s⟩ := c
  -- apart from the rule, this is a change that moves no position
  have hcontrol : control.recast .permitting = control := Control.recast_id control
  have hstack : Stack.recast .permitting k = k := Stack.recast_id k
  have hsession : s.recast .permitting = s.permitting :=
    congrArg Session.permitting (Session.recast_id s)
  simp only [recast, permitting, hcontrol, hstack, hsession]

/-- As long as the strict rule has refused nothing, the permissive rule makes no difference. -/
theorem after_permitting (h : ∀ m ≤ n, ¬ (c.after m).Refused) :
    c.permitting.after n = (c.after n).permitting := by
  rw [← recast_permitting, ← recast_permitting]
  exact after_recast fun _ => h

theorem ended?_permitting (c : Configuration) :
    c.permitting.ended? = c.ended?.map fun (e, s) => (e, s.permitting) := by
  obtain ⟨control, k, s⟩ := c
  cases k <;> cases control <;> rfl

/-! ## Where the runs part -/

/-- A step that is refused has printed nothing. -/
theorem sink_step_of_refused (h : c.step.Refused) : c.step.session.sink = c.session.sink := by
  rcases sink_step_cases c with hsame | ⟨v, pos, k, hattempt, -⟩
  · exact hsame
  · -- a print statement fails for another reason
    obtain ⟨name, pos', hcontrol⟩ := h
    rw [show c.step = printAt v pos k c.session from step_of_attempt hattempt, printAt] at hcontrol
    split at hcontrol
    · cases hcontrol
    · cases hcontrol

/-- Two runs are the same up to the step `n + 1`, in which the strict rule refuses to define `name`
once more. The first ends with this, and without any more output; what the second prints from there
on comes behind the output of the first. -/
structure PartsAt (n : Nat) (name : String) (pos : Position) (strict permissive : Configuration) :
    Prop where
  same : ∀ m ≤ n, permissive.after m = (strict.after m).permitting
  refused : ∀ m > n, (strict.after m).control = .failed ⟨.redefined name, pos⟩
  output : ∀ m > n, (strict.after m).session.sink = (strict.after n).session.sink
  continues : ∀ m > n, (permissive.after m).session.sink.Continues (strict.after n).session.sink

/-- A run in which something is refused parts there from the run under the permissive rule. -/
theorem exists_partsAt (hstart : ¬ c.Refused) (h : ∃ n, (c.after n).Refused) :
    ∃ n name pos, PartsAt n name pos c c.permitting := by
  obtain ⟨n, hbefore, hloss⟩ := exists_first_loss (P := fun c => ¬ c.Refused) hstart
    (h.imp fun n => not_not.2)
  obtain ⟨name, pos, hcontrol⟩ := not_not.1 hloss
  have hsame : ∀ m ≤ n, c.permitting.after m = (c.after m).permitting := fun m hm =>
    after_permitting fun i hi => hbefore i (Nat.le_trans hi hm)
  have hfailed : c.after (n + 1) = ⟨.failed ⟨.redefined name, pos⟩, (c.after (n + 1)).stack,
      (c.after (n + 1)).session⟩ := by rw [← hcontrol]
  refine ⟨n, name, pos, hsame, ?refused, ?output, ?continues⟩
  case refused => exact fun m hm => (after_of_failed hfailed hm).1
  case output =>
    intro m hm
    rw [(after_of_failed hfailed hm).2.1, after_succ_eq_step]
    refine sink_step_of_refused ⟨name, pos, ?_⟩
    rw [← after_succ_eq_step, hcontrol]
  case continues =>
    intro m hm
    have hmore := continues_after c.permitting (Nat.le_of_lt hm)
    rw [hsame n (Nat.le_refl n)] at hmore
    exact hmore

/-- The strict run can end with nothing but the failure, and with the output there was. -/
theorem PartsAt.of_run_strict {name : String} {pos : Position} {e : Except Diagnostic Outcome}
    {s : Session} {steps : Nat} (h : PartsAt n name pos strict permissive)
    (hrun : strict.run steps = some (e, s)) :
    e = .error ⟨.redefined name, pos⟩ ∧ s.sink = (strict.after n).session.sink := by
  -- the run is given more steps, so that the refused one is among them
  have hlong := run_mono hrun (Nat.le_add_right steps (n + 1))
  have hlate : n < steps + (n + 1) := by omega
  have hcontrol := h.refused _ hlate
  have hsink := h.output _ hlate
  rw [run_eq_after] at hlong
  rcases ended?_eq_some hlong with ⟨o, -, hc⟩ | ⟨d, rfl, hc⟩
  · rw [hc] at hcontrol
    cases hcontrol
  · rw [hc] at hcontrol hsink
    obtain rfl := Control.failed.inj hcontrol
    exact ⟨rfl, hsink⟩

/-- However the permissive run ends, its output begins with that of the strict run. -/
theorem PartsAt.of_run_permissive {name : String} {pos : Position} {e : Except Diagnostic Outcome}
    {s : Session} {steps : Nat} (h : PartsAt n name pos strict permissive)
    (hrun : permissive.run steps = some (e, s)) :
    s.sink.Continues (strict.after n).session.sink := by
  have hlong := run_mono hrun (Nat.le_add_right steps (n + 1))
  have hcontinues := h.continues (steps + (n + 1)) (by omega)
  rwa [(after_of_run hlong).1] at hcontinues

/-- **The rules agree wherever the strict one does not object.** Whatever the sink, the limit on the
nesting of calls and the program: if the run under the strict rule does not end because a name is
defined twice, whether or not it ends at all, the run under the permissive rule is the same at every
moment, and ends with the same result, the same variables and the same output. If it does end so,
the runs are the same up to the definition that is refused, and the output of the permissive run
begins with that of the strict one. -/
theorem policies_agree_unless_refused (sink : Sink) (depth : Nat) (program : Program) :
    ((∀ steps name pos s, (Session.alone .strict sink depth).interpret steps program ≠
        some (.error ⟨.redefined name, pos⟩, s)) →
      (∀ n, (launch .permissive sink depth program).after n =
        ((launch .strict sink depth program).after n).permitting) ∧
      ∀ steps, (Session.alone .permissive sink depth).interpret steps program =
        ((Session.alone .strict sink depth).interpret steps program).map fun (r, s) =>
          (r, s.permitting)) ∧
    ∀ steps name pos s, (Session.alone .strict sink depth).interpret steps program =
        some (.error ⟨.redefined name, pos⟩, s) →
      (∃ n, PartsAt n name pos (launch .strict sink depth program)
        (launch .permissive sink depth program) ∧
        s.sink = ((launch .strict sink depth program).after n).session.sink) ∧
      ∀ steps r t, (Session.alone .permissive sink depth).interpret steps program = some (r, t) →
        t.sink.Continues s.sink := by
  have hlaunch : launch .permissive sink depth program =
      (launch .strict sink depth program).permitting := rfl
  constructor
  · intro h
    have hfree : ∀ n, ¬ ((launch .strict sink depth program).after n).Refused := by
      rintro n ⟨name, pos, hcontrol⟩
      obtain ⟨steps, t, hrun, -⟩ := run_of_failed (show _ = Configuration.mk _ _ _ by
        rw [← hcontrol])
      exact h steps name pos { t with pending := .normal } (by rw [interpret_alone, hrun]; rfl)
    have hsame : ∀ n, (launch .permissive sink depth program).after n =
        ((launch .strict sink depth program).after n).permitting := fun n => by
      rw [hlaunch]
      exact after_permitting fun m _ => hfree m
    refine ⟨hsame, fun steps => ?_⟩
    rw [interpret_alone, interpret_alone, run_eq_after, run_eq_after, hsame, ended?_permitting,
      Option.map_map, Option.map_map]
    rfl
  · intro steps name pos s hinterpret
    rw [interpret_alone] at hinterpret
    obtain ⟨⟨e, s'⟩, hrun, hend⟩ := Option.map_eq_some_iff.1 hinterpret
    obtain ⟨he, rfl⟩ := Prod.mk.inj hend
    cases e with
    | ok o => cases he
    | error d =>
      obtain rfl := Except.error.inj he
      have hrefused : ∃ n, ((launch .strict sink depth program).after n).Refused := by
        refine ⟨steps, name, pos, ?_⟩
        rw [run_eq_after] at hrun
        rcases ended?_eq_some hrun with ⟨o, ho, -⟩ | ⟨d, hd, hc⟩
        · cases ho
        · rw [hc, Except.error.inj hd]
      have hstart : ¬ (launch .strict sink depth program).Refused := by
        rintro ⟨name, pos, hcontrol⟩
        cases hcontrol
      obtain ⟨n, name', pos', hparts⟩ := exists_partsAt hstart hrefused
      obtain ⟨hsame, hsink⟩ := hparts.of_run_strict hrun
      obtain ⟨rfl, rfl⟩ : name = name' ∧ pos = pos' := by simpa using hsame
      refine ⟨⟨n, hparts, hsink⟩, fun steps' r t hpermissive => ?_⟩
      rw [interpret_alone] at hpermissive
      obtain ⟨⟨e', t'⟩, hrun', hend'⟩ := Option.map_eq_some_iff.1 hpermissive
      obtain ⟨-, rfl⟩ := Prod.mk.inj hend'
      show t'.sink.Continues s'.sink
      rw [hsink]
      exact hparts.of_run_permissive hrun'

/-- A variable is printed, defined again and printed again. -/
def redefinition : Program :=
  [.declare "a" none .start, .print (.ident "a" .start) .start,
    .declare "a" (some (.literal (.bool true) .start)) ⟨2, 1⟩,
    .print (.ident "a" .start) .start]

/-- The strict rule refuses the second definition, and the permissive run goes on to print more. -/
theorem policies_agree_unless_refused_redefinition :
    ∃ n, PartsAt n "a" ⟨2, 1⟩ (launch .strict (.new none) 10 redefinition)
      (launch .permissive (.new none) 10 redefinition) := by
  have hends : ∃ s, (Session.alone .strict (.new none) 10).interpret 30 redefinition =
      some (.error ⟨.redefined "a", ⟨2, 1⟩⟩, s) := ⟨_, rfl⟩
  obtain ⟨s, hs⟩ := hends
  obtain ⟨n, hparts, -⟩ :=
    ((policies_agree_unless_refused (.new none) 10 redefinition).2 30 "a" ⟨2, 1⟩ s hs).1
  exact ⟨n, hparts⟩

end Configuration

end Script
