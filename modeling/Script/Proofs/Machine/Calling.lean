import Script.Proofs.Machine.Finishing

/-!
# The order in which a call is judged

A call evaluates its callee, then its arguments from left to right. Only then is the callee judged,
so a callee that is no function is not noticed before all arguments have had their effects, and not
at all if one of them fails.

- `Configuration.Arguments`: arguments evaluated one after the other.
- `finishes_nextArgument_iff`: how the arguments of a callee that is no function finish.
- `callee_judged_after_arguments`: how the call does.
-/

namespace Script.Configuration

variable {v : Value} {pos : Position} {k : Stack} {before : List Value} {after : List Expr}
  {s : Session} {d : Configuration}

/-- The arguments `after`, behind the values `before`, are evaluated one after the other, beginning
in a session. The result is how this finishes: with the diagnostic of the first that fails, or with
all values; and the session then. -/
inductive Arguments (v : Value) (pos : Position) (k : Stack) :
    List Value → List Expr → Session → Except Diagnostic (List Value) → Session → Prop
  | all {before : List Value} {s : Session} : Arguments v pos k before [] s (.ok before.reverse) s
  | fails {before : List Value} {e : Expr} {after : List Expr} {s t : Session} {d : Diagnostic} :
    Finishes (.argument v before after pos :: k)
      ⟨.eval e, .argument v before after pos :: k, s⟩
      ⟨.failed d, .argument v before after pos :: k, t⟩ →
    Arguments v pos k before (e :: after) s (.error d) t
  | value {before : List Value} {e : Expr} {after : List Expr} {s t u : Session} {o : Outcome}
    {r : Except Diagnostic (List Value)} :
    Finishes (.argument v before after pos :: k)
      ⟨.eval e, .argument v before after pos :: k, s⟩
      ⟨.done o, .argument v before after pos :: k, t⟩ →
    Arguments v pos k (o.asValue :: before) after t r u →
    Arguments v pos k before (e :: after) s r u

/-- What a call of `v` at `pos` fails with, if `v` is no function: an argument that fails comes
first. -/
def judge (v : Value) (pos : Position) : Except Diagnostic (List Value) → Diagnostic
  | .ok _ => ⟨.notCallable v.kind, pos⟩
  | .error d => d

theorem call_of_not_function (hv : ∀ f, v ≠ .function f) (args : List Value) :
    call v args pos k s = ⟨.failed ⟨.notCallable v.kind, pos⟩, k, s⟩ := by
  cases v with
  | function f => exact absurd rfl (hv f)
  | _ => rfl

/-- The arguments are evaluated one after the other, and then the callee is found to be no
function. -/
theorem finishes_nextArgument_iff (hv : ∀ f, v ≠ .function f) :
    Finishes k (nextArgument v before after pos k s) d ↔
      ∃ r u, Arguments v pos k before after s r u ∧ d = ⟨.failed (judge v pos r), k, u⟩ := by
  induction after generalizing before s with
  | nil =>
    show Finishes k (call v before.reverse pos k s) d ↔ _
    rw [call_of_not_function hv, (isOver_failed ..).finishes_iff]
    constructor
    · rintro rfl
      exact ⟨_, _, .all, rfl⟩
    · rintro ⟨r, u, harguments, rfl⟩
      cases harguments
      rfl
  | cons e after ih =>
    -- the argument finishes first, and then the next one is begun, or the call is given up
    rw [nextArgument, finishes_below_iff (List.nil_append _).symm]
    constructor
    · rintro ⟨⟨control, stack, t⟩, hargument, hrest⟩
      obtain ⟨rfl, ⟨o, rfl⟩ | ⟨fault, rfl⟩⟩ : stack = _ ∧
        ((∃ o, control = .done o) ∨ ∃ fault, control = .failed fault) := hargument.isOver
      · obtain ⟨r, u, harguments, rfl⟩ := ih.1 hrest
        exact ⟨r, u, .value hargument harguments, rfl⟩
      · exact ⟨_, t, .fails hargument, (isOver_failed fault k t).finishes_iff.1 hrest⟩
    · rintro ⟨r, u, harguments, rfl⟩
      cases harguments with
      | fails hargument => exact ⟨_, hargument, (isOver_failed _ k u).finishes_iff.2 rfl⟩
      | value hargument harguments => exact ⟨_, hargument, ih.2 ⟨r, u, harguments, rfl⟩⟩

/-- **A callee is judged when its arguments have been evaluated.** In whatever state an interpreter
is and whatever remains to be done: a call whose callee comes to a value that is no function
evaluates the arguments from left to right. If one fails, the call fails with it; else it fails at
its position because of the callee. Frames, output and all else is as the arguments have left it. If
an argument never ends, neither does the call. -/
theorem callee_judged_after_arguments {callee : Expr} (args : List Expr) {t : Session} {o : Outcome}
    (hcallee : Finishes (.callee args pos :: k) ⟨.eval callee, .callee args pos :: k, s⟩
      ⟨.done o, .callee args pos :: k, t⟩)
    (hfunction : ∀ f, o.asValue ≠ .function f) (d : Configuration) :
    Finishes k ⟨.eval (.call callee args pos), k, s⟩ d ↔
      ∃ r u, Arguments o.asValue pos k [] args t r u ∧
        d = ⟨.failed (judge o.asValue pos r), k, u⟩ := by
  have hbusy : ¬ IsOver k ⟨.eval (.call callee args pos), k, s⟩ := by
    rintro ⟨-, ⟨_, h⟩ | ⟨_, h⟩⟩ <;> cases h
  rw [finishes_iff_step hbusy, ← finishes_nextArgument_iff hfunction]
  show Finishes k ⟨.eval callee, .callee args pos :: k, s⟩ d ↔ _
  rw [finishes_below_iff (List.nil_append _).symm]
  constructor
  · rintro ⟨m, hm, hrest⟩
    obtain rfl := hm.unique hcallee
    exact hrest
  · intro hrest
    exact ⟨_, hcallee, hrest⟩

/-- An interpreter in which a function that prints has been declared. -/
def noisy : Session :=
  let body : List Stmt := [.print (.literal (.string "called") ⟨1, 17⟩) ⟨1, 11⟩]
  (step ⟨.exec (.function ⟨"f", [], body, ⟨1, 1⟩⟩), [], .new (.new none)⟩).session

/-- A call of that function, which is the argument of a call. -/
def noisyArgument : Expr := .call (.ident "f" ⟨2, 5⟩) [] ⟨2, 7⟩

theorem finishes_nil (k : Stack) (s : Session) (pos : Position) :
    Finishes k ⟨.eval (.literal .nil pos), k, s⟩ ⟨.done (.value .nil), k, s⟩ := by
  have hbusy : ¬ IsOver k ⟨.eval (.literal .nil pos), k, s⟩ := by
    rintro ⟨-, ⟨_, h⟩ | ⟨_, h⟩⟩ <;> cases h
  exact (finishes_iff_step hbusy).2 ((isOver_done ..).finishes_iff.2 rfl)

/-- If `nil` is called with that argument, the argument is evaluated first. -/
theorem callee_judged_after_arguments_noisyArgument :
    let call : Expr := .call (.literal .nil ⟨2, 1⟩) [noisyArgument] ⟨2, 8⟩
    let k : Stack := [.callee [noisyArgument] ⟨2, 8⟩]
    Finishes k ⟨.eval (.literal .nil ⟨2, 1⟩), k, noisy⟩ ⟨.done (.value .nil), k, noisy⟩ ∧
      (∀ f, Value.nil ≠ .function f) ∧
      ∀ d, Finishes [] ⟨.eval call, [], noisy⟩ d ↔
        ∃ r u, Arguments .nil ⟨2, 8⟩ [] [] [noisyArgument] noisy r u ∧
          d = ⟨.failed (judge .nil ⟨2, 8⟩ r), [], u⟩ := by
  intro call k
  have hcallee := finishes_nil k noisy ⟨2, 1⟩
  have hfunction : ∀ f, Value.nil ≠ .function f := fun f h => by cases h
  exact ⟨hcallee, hfunction,
    callee_judged_after_arguments [noisyArgument] hcallee hfunction⟩

/-- So what such a call fails with, and what has been printed then, is not told by the evaluation of
the callee alone. -/
theorem callee_not_judged_first :
    ¬ ∀ (callee : Expr) (args : List Expr) (pos : Position) (k : Stack) (s t : Session)
        (o : Outcome),
      Finishes (.callee args pos :: k) ⟨.eval callee, .callee args pos :: k, s⟩
        ⟨.done o, .callee args pos :: k, t⟩ →
      (∀ f, o.asValue ≠ .function f) →
      ∃ u, Finishes k ⟨.eval (.call callee args pos), k, s⟩
          ⟨.failed ⟨.notCallable o.asValue.kind, pos⟩, k, u⟩ ∧
        u.sink.written = t.sink.written ∧ ∀ name, u.arena.get? name = t.arena.get? name := by
  intro hclaim
  obtain ⟨u, hu, hwritten, -⟩ := hclaim (.literal .nil ⟨2, 1⟩) [noisyArgument] ⟨2, 8⟩ [] noisy noisy
    (.value .nil) (finishes_nil ..) fun f h => by cases h
  have hsizes : noisy.sink.written.size = 0 ∧
      (run 20 ⟨.eval (.call (.literal .nil ⟨2, 1⟩) [noisyArgument] ⟨2, 8⟩), [], noisy⟩).map
        (fun r => r.2.sink.written.size) = some 7 := by
    decide +kernel
  obtain ⟨r, hrun, hseven⟩ := Option.map_eq_some_iff.1 hsizes.2
  obtain ⟨d, hd, hended⟩ := exists_finishes_of_run hrun
  obtain rfl := hu.unique hd
  obtain rfl : _ = r := Option.some.inj hended
  rw [hwritten, hsizes.1] at hseven
  cases hseven

end Script.Configuration
