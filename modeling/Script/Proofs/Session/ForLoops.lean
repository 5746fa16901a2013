import Script.Proofs.Grammar.Declarations
import Script.Proofs.Machine.Finishing
import Script.Proofs.Machine.Skipping
import Script.Proofs.Session.Soundness

/-!
# The increment of a loop

A loop with an increment does what one expects of it: the same as a loop whose body is a block that
ends with the increment, as long as no jump in the body skips the rest of an iteration. The block
costs one more frame for each iteration. That frame binds nothing, so the two runs are the same up
to the names of frames, if these frames are skipped.

- `ForLoop`, `ForLoop.withIncrement`, `ForLoop.withBlock`: a loop, written in two ways.
- `ForLoop.Paired`: what remains to be done in the two runs at the same time.
- `ForLoop.Abreast`, `Abreast.catchesUp`, `Abreast.after`: the two runs are at the same point; one
  step, and any number of steps, of the first.
- `increment_ends_iteration`: the two loops write, end with, and leave behind the same.
-/

namespace Script

/-- A loop whose increment is evaluated after every iteration that does not leave it. -/
structure ForLoop where
  condition : Expr
  increment : Expr
  body : Stmt

namespace ForLoop

/-- The loop, with an increment of its own. -/
def withIncrement (l : ForLoop) (pos : Position) : Stmt :=
  .loop l.condition l.body (some l.increment) pos

/-- The body with the increment behind it. -/
def block (l : ForLoop) : Stmt := .block [l.body, .expression l.increment]

/-- The loop, with the increment at the end of its body. -/
def withBlock (l : ForLoop) (pos : Position) : Stmt := .loop l.condition l.block none pos

/-- What remains to be done behind the statements of the block. -/
abbrev leaving (l : ForLoop) (frame x : Handle) (k : Stack) : Stack :=
  .leaveBlock frame x :: .loopBody l.condition l.block none :: k

/-- What remains to be done in the loop with an increment, and at the same time in the loop with a
block, if both have `k` to do afterwards: the condition, the body or the increment is next. The
block runs in a frame that is skipped. -/
inductive Paired (l : ForLoop) (k : Stack) (ρ : Handle → Handle) : Stack → Stack → Prop
  | test : Paired l k ρ (.loopTest l.condition l.body (some l.increment) :: k)
    (.loopTest l.condition l.block none :: k)
  | body {frame x : Handle} : ρ frame = ρ x →
    Paired l k ρ (.loopBody l.condition l.body (some l.increment) :: k)
      (.sequence [.expression l.increment] :: l.leaving frame x k)
  | next {frame x : Handle} : ρ frame = ρ x →
    Paired l k ρ (.loopNext l.condition l.body (some l.increment) :: k)
      (.discard :: .sequence [] :: l.leaving frame x k)

end ForLoop

namespace Configuration

variable {c d e : Configuration} {k k₁ k₂ : Stack} {n : Nat} {V : Set Handle}
  {φ ρ : Handle → Handle} {s t : Session}

/-- The second run comes from `d` to `e` in `n` steps. What the last of them does is left open;
until then nothing is over, and nothing is written. -/
inductive Comes (k : Stack) : Nat → Configuration → Configuration → Prop
  | last {d e : Configuration} : d.step = e → ¬ d.IsOver k → Comes k 1 d e
  | silent {n : Nat} {d d' e : Configuration} : d.step = d' → ¬ d.IsOver k →
    d'.session.sink = d.session.sink → Comes k n d' e → Comes k (n + 1) d e

theorem Comes.after (h : Comes k n d e) : d.after n = e ∧ 0 < n ∧
    ∀ i < n, ¬ (d.after i).IsOver k ∧ (d.after i).session.sink = d.session.sink := by
  induction h with
  | last hstep hbusy =>
    refine ⟨hstep, Nat.one_pos, fun i hi => ?_⟩
    obtain rfl := Nat.lt_one_iff.1 hi
    exact ⟨hbusy, rfl⟩
  | @silent n d d' e hstep hbusy hsink _ ih =>
    subst hstep
    obtain ⟨hafter, -, hquiet⟩ := ih
    refine ⟨hafter, Nat.succ_pos _, fun i hi => ?_⟩
    cases i with
    | zero => exact ⟨hbusy, rfl⟩
    | succ i =>
      obtain ⟨hbusy', hsink'⟩ := hquiet i (Nat.lt_of_succ_lt_succ hi)
      exact ⟨hbusy', hsink'.trans hsink⟩

/-- Where both machines have come to their stacks, only their sessions matter. -/
theorem mirrorsThrough_at (h : s.MirrorsThrough V φ ρ t) (control : Control)
    (hcontrol : ∀ fn ∈ control.functions, fn.captured ∈ V) (k₁ k₂ : Stack) :
    MirrorsThrough k₁ k₂ V φ ρ ⟨control, k₁, s⟩ ⟨control.rename φ, k₂, t⟩ :=
  ⟨rfl, hcontrol, ⟨[], [], rfl, rfl, rfl, Stack.inside_nil⟩, h⟩

theorem MirrorsThrough.at_over (h : c.MirrorsThrough k₁ k₂ V φ ρ d) (hover : c.IsOver k₁) :
    ∃ control s t, c = ⟨control, k₁, s⟩ ∧ d = ⟨control.rename φ, k₂, t⟩ ∧
      s.MirrorsThrough V φ ρ t ∧ (∀ fn ∈ control.functions, fn.captured ∈ V) ∧
      ((∃ o, control = .done o) ∨ ∃ fault, control = .failed fault) := by
  have hover' := h.isOver_iff.2 hover
  obtain ⟨control, stack, s⟩ := c
  obtain ⟨control', stack', t⟩ := d
  obtain ⟨rfl, hended⟩ := hover
  obtain ⟨rfl, -⟩ := hover'
  obtain rfl : control' = control.rename φ := h.control
  exact ⟨control, s, t, rfl, rfl, h.session, h.carried, hended⟩

end Configuration

open Script.Configuration

variable {l : ForLoop} {k k₁ k₂ : Stack} {c d : Configuration} {V W : Set Handle}
  {φ ψ ρ σ : Handle → Handle} {s t : Session} {control : Control} {old still : Handle → Prop}
  {since since' : Nat} {kept kept' : Closure → Prop} {n m : Nat} {o : Outcome} {frame x : Handle}

namespace ForLoop

/-! ## Two runs at the same point -/

/-- The run `c` of the loop with an increment, and the run `d` of the loop with a block, are at the
same point. Frames that are `old` have kept their names. -/
inductive Abreast (l : ForLoop) (k : Stack) (old : Handle → Prop) :
    Configuration → Configuration → Prop
  | start {s : Session} (pos pos' : Position) : (∀ x, old x → s.arena.Live x) →
    Abreast l k old ⟨.exec (l.withIncrement pos), k, s⟩ ⟨.exec (l.withBlock pos'), k, s⟩
  | running {c d : Configuration} {k₁ k₂ : Stack} {V : Set Handle} {φ ρ : Handle → Handle} :
    l.Paired k ρ k₁ k₂ → c.MirrorsThrough k₁ k₂ V φ ρ d → d.Enclosed k₂ →
    (∀ x, old x → x ∈ V ∧ φ x = x) → Abreast l k old c d
  | ended {c d : Configuration} {V : Set Handle} {φ ρ : Handle → Handle} :
    c.MirrorsThrough k k V φ ρ d → c.IsOver k →
    (∀ x, old x → x ∈ V ∧ φ x = x) → Abreast l k old c d

/-- When the first run takes a step, the second can catch up. -/
def CatchesUp (l : ForLoop) (k : Stack) (old : Handle → Prop) (c d : Configuration) : Prop :=
  ∃ n e, Comes k n d e ∧
    l.Abreast k (fun x => old x ∧ c.session.arena.Live x ∧ d.Lasts n x) c e

theorem Abreast.mono (h : l.Abreast k old c d) (hstill : ∀ x, still x → old x) :
    l.Abreast k still c d := by
  cases h with
  | start pos pos' hold => exact .start pos pos' fun x hx => hold x (hstill x hx)
  | running hpaired hmirrors henclosed hold =>
    exact .running hpaired hmirrors henclosed fun x hx => hold x (hstill x hx)
  | ended hmirrors hover hold => exact .ended hmirrors hover fun x hx => hold x (hstill x hx)

/-- It is enough that frames are there when the second run has caught up. -/
theorem catchesUp_of_comes {e : Configuration} (h : Comes k n d e)
    (habreast : l.Abreast k
      (fun x => old x ∧ c.session.arena.Live x ∧ e.session.arena.Live x) c e) :
    l.CatchesUp k old c d := by
  refine ⟨n, e, h, habreast.mono fun x hx => ⟨hx.1, hx.2.1, ?_⟩⟩
  have hlive := hx.2.2 n (Nat.le_refl n)
  rwa [h.after.1] at hlive

/-- As long as something remains to be done in the loop, neither run is over. -/
theorem Paired.not_isOver (h : l.Paired k ρ k₁ k₂) (hmirrors : c.MirrorsThrough k₁ k₂ V φ ρ d) :
    ¬ c.IsOver k ∧ ¬ d.IsOver k := by
  have hlength : k.length < k₁.length ∧ k.length < k₂.length := by
    cases h <;> simp <;> omega
  obtain ⟨top, top', hstack, hstack', -⟩ := hmirrors.stack
  constructor <;> refine not_isOver_of_length ?_
  · rw [hstack, List.length_append]
    omega
  · rw [hstack', List.length_append]
    omega

theorem not_isOver_leaving (top : Stack) (control : Control) (t : Session) :
    ¬ IsOver k ⟨control, top ++ l.leaving frame x k, t⟩ := by
  refine not_isOver_of_length ?_
  simp only [List.length_append, List.length_cons]
  omega

/-- Only the frame that is skipped, and the one that takes its place, matter. -/
theorem Paired.congr (h : l.Paired k ρ k₁ k₂)
    (hsame : ∀ scope ∈ Stack.scopes k₂,
      σ scope.frame = ρ scope.frame ∧ σ scope.caller = ρ scope.caller) :
    l.Paired k σ k₁ k₂ := by
  cases h with
  | test => exact .test
  | body hskipped =>
    obtain ⟨hframe, hcaller⟩ := hsame _ List.mem_cons_self
    exact .body (hframe.trans (hskipped.trans hcaller.symm))
  | next hskipped =>
    obtain ⟨hframe, hcaller⟩ := hsame _ List.mem_cons_self
    exact .next (hframe.trans (hskipped.trans hcaller.symm))

theorem old_of_stillNamed {a b : Arena} (h : Arena.StillNamed V φ a b W ψ)
    (hold : ∀ x, old x → x ∈ V ∧ φ x = x) (hx : old x) (ha : a.Live x) (hb : b.Live x) :
    x ∈ W ∧ ψ x = x := by
  obtain ⟨hmem, hname⟩ := hold x hx
  exact ⟨h.keeps x hmem ha (hname.symm ▸ hb), (h.names x hmem).trans hname⟩

/-! ## Steps -/

/-- Both runs begin with the condition, in the same session. -/
theorem catchesUp_start (hs : s.arena.Sound since kept) (pos pos' : Position)
    (hold : ∀ y, old y → s.arena.Live y) :
    l.CatchesUp k old (step ⟨.exec (l.withIncrement pos), k, s⟩)
      ⟨.exec (l.withBlock pos'), k, s⟩ := by
  have hsame (f : Frame) : f.skip id = f := by
    rw [Frame.skip, Option.map_id]
    rfl
  have hsession : s.MirrorsThrough {x | s.arena.Live x} id id s := by
    refine ⟨⟨?_, rfl, rfl, rfl⟩, Arena.skips_id _, fun _ _ => rfl⟩
    exact
      { frame := by
          rintro x ⟨f, hf⟩
          refine ⟨f, hf, ?_, fun y hy => hs.live_link hf y hy⟩
          show (s.arena.skip id).frame? x = _
          rw [Arena.frame?_skip, hf, Option.map_some, hsame, Frame.rename_id]
        injective := Function.injective_id.injOn
        nextFunction := rfl
        policy := rfl
        inside := hs.current
        current := rfl }
  exact catchesUp_of_comes (.last rfl (not_isOver_exec _ k _))
    (.running .test (mirrorsThrough_at hsession (.eval l.condition) (List.forall_mem_nil _) _ _)
      ⟨[], rfl, trivial, .nil⟩ fun x hx => ⟨hold x hx.1, rfl⟩)

/-- The two runs do the same in a condition, a body or an increment. -/
theorem catchesUp_within (h : l.Paired k ρ k₁ k₂) (hmirrors : c.MirrorsThrough k₁ k₂ V φ ρ d)
    (hc : c.Sound since kept) (hd : d.Sound since' kept') (henclosed : d.Enclosed k₂)
    (hold : ∀ x, old x → x ∈ V ∧ φ x = x) (hbusy : ¬ c.IsOver k₁) :
    l.CatchesUp k old c.step d := by
  have henclosed' := henclosed.step fun hover => hbusy (hmirrors.isOver_iff.1 hover)
  obtain ⟨W, ψ, hnext, hnamed⟩ := hmirrors.step hc hd henclosed hbusy
  obtain ⟨above, above', -, habove, -⟩ := hnext.stack
  have hpaired : l.Paired k (d.step.session.arena.confine ρ) k₁ k₂ := by
    refine h.congr fun scope hscope => ?_
    obtain ⟨hframe, hcaller⟩ := hd.step.intact.scopes scope (by
      rw [habove, scopes_append]
      exact List.mem_append_right _ hscope)
    exact ⟨Arena.confine_of_live hframe, Arena.confine_of_live hcaller⟩
  exact catchesUp_of_comes (.last rfl (h.not_isOver hmirrors).2)
    (.running hpaired hnext henclosed' fun x hx =>
      old_of_stillNamed hnamed hold hx.1 hx.2.1 hx.2.2)

/-- The second run leaves the block, whatever the statements in it have ended with, and its loop
goes on from there. -/
theorem comes_out {final : Control} (h : s.MirrorsThrough V φ ρ t) (hskipped : ρ frame = ρ x)
    (hended : (∃ o, control = .done o) ∨ ∃ fault, control = .failed fault)
    (hcontrol : ∀ fn ∈ control.functions, fn.captured ∈ V) (hs : Intact ⟨control, k, s⟩)
    (ht : Sound since kept ⟨control.rename φ, l.leaving frame x k, t⟩)
    (hold : ∀ y, old y → y ∈ V ∧ φ y = y) (hfinal : ∀ fn ∈ final.functions, fn ∈ control.functions)
    (hgo : ∀ ψ t', step ⟨control.rename ψ, .loopBody l.condition l.block none :: k, t'⟩ =
      ⟨final.rename ψ, k₂, t'⟩) (k₁ : Stack) :
    ∃ t' W ψ σ,
      Comes k 2 ⟨control.rename φ, l.leaving frame x k, t⟩ ⟨final.rename ψ, k₂, t'⟩ ∧
      MirrorsThrough k₁ k₂ W ψ σ ⟨final, k₁, s⟩ ⟨final.rename ψ, k₂, t'⟩ ∧
      ∀ y, old y ∧ s.arena.Live y ∧ t'.arena.Live y → y ∈ W ∧ ψ y = y := by
  obtain ⟨t', hstep, hsink, W, ψ, hmirrors, hnamed⟩ :=
    leave_through h hs ht hended hcontrol hskipped
  have hsame : control.rename φ = control.rename ψ := hmirrors.control
  refine ⟨t', W, ψ, _, .silent hstep (not_isOver_leaving [] _ _) hsink (.last ?_ ?_),
    mirrorsThrough_at hmirrors.session final (fun fn hfn => hmirrors.carried fn (hfinal fn hfn)) _
      _, fun y hy => old_of_stillNamed hnamed hold hy.1 hy.2.1 hy.2.2⟩
  · rw [hsame]
    exact hgo ψ t'
  · exact not_isOver_of_length (Nat.lt_succ_self _)

/-- A jump out of the loop, or a failure, leaves the block, and then the loop. -/
theorem catchesUp_out {jump final : Control} (h : s.MirrorsThrough V φ ρ t)
    (hskipped : ρ frame = ρ x)
    (hjump : (∃ o, jump = .done o) ∨ ∃ fault, jump = .failed fault)
    (hdone : (∃ o, final = .done o) ∨ ∃ fault, final = .failed fault)
    (hcontrol : ∀ fn ∈ jump.functions, fn.captured ∈ V) (hfinal : final.functions = jump.functions)
    (hs : Intact ⟨final, k, s⟩)
    (ht : Sound since kept ⟨jump.rename φ, l.leaving frame x k, t⟩)
    (hold : ∀ y, old y → y ∈ V ∧ φ y = y)
    (hgo : ∀ ψ t', step ⟨jump.rename ψ, .loopBody l.condition l.block none :: k, t'⟩ =
      ⟨final.rename ψ, k, t'⟩)
    (hcomes : ∀ e, Comes k 2 ⟨jump.rename φ, l.leaving frame x k, t⟩ e → Comes k n d e) :
    l.CatchesUp k old ⟨final, k, s⟩ d := by
  have hintact : Intact ⟨jump, k, s⟩ :=
    ⟨hs.links, hs.current, fun fn hfn => hs.held fn (hfn.imp_left fun hfn => hfinal ▸ hfn),
      hs.scopes⟩
  obtain ⟨t', W, ψ, σ, hout, hmirrors, hnamed⟩ := comes_out h hskipped hjump hcontrol hintact ht
    hold (fun fn hfn => hfinal ▸ hfn) hgo k
  exact catchesUp_of_comes (hcomes _ hout) (.ended hmirrors ⟨rfl, hdone⟩ hnamed)

/-- The condition has been evaluated. -/
theorem catchesUp_test (h : s.MirrorsThrough V φ ρ t) (ht : t.arena.Sound since kept)
    (hended : (∃ o, control = .done o) ∨ ∃ fault, control = .failed fault)
    (hbody : l.body.Enclosed []) (hold : ∀ y, old y → y ∈ V ∧ φ y = y) :
    l.CatchesUp k old (step ⟨control, .loopTest l.condition l.body (some l.increment) :: k, s⟩)
      ⟨control.rename φ, .loopTest l.condition l.block none :: k, t⟩ := by
  have hnone : ∀ fn ∈ ([] : List Closure), fn.captured ∈ V := List.forall_mem_nil _
  rcases hended with ⟨o, rfl⟩ | ⟨fault, rfl⟩
  · have htruthy : (o.rename φ).asValue.isTruthy = o.asValue.isTruthy := by
      rw [Outcome.asValue_rename, Value.isTruthy_rename]
    by_cases htrue : o.asValue.isTruthy = true
    · -- the second run enters the block, and comes to the body in it
      have hstep : step ⟨.done o, .loopTest l.condition l.body (some l.increment) :: k, s⟩ =
          ⟨.exec l.body, .loopBody l.condition l.body (some l.increment) :: k, s⟩ := if_pos htrue
      have hstep' : step ⟨.done (o.rename φ), .loopTest l.condition l.block none :: k, t⟩ =
          ⟨.exec l.block, .loopBody l.condition l.block none :: k, t⟩ :=
        if_pos (htruthy.trans htrue)
      obtain ⟨σ, hskipped, hinside⟩ := enter_through h ht
      have henter : step ⟨.exec l.block, .loopBody l.condition l.block none :: k, t⟩ =
          ⟨.done .normal, .sequence [l.body, .expression l.increment] ::
            l.leaving (t.arena.push t.arena.current).2 t.arena.current k, { t with
            arena := (t.arena.push t.arena.current).1.enter (t.arena.push t.arena.current).2 }⟩ :=
        rfl
      rw [hstep]
      exact catchesUp_of_comes
        (.silent hstep' (not_isOver_of_length (Nat.lt_succ_self _)) rfl
          (.silent henter (not_isOver_of_length (Nat.lt_succ_self _)) rfl
            (.last rfl (not_isOver_leaving [.sequence _] _ _))))
        (.running (.body hskipped) (mirrorsThrough_at hinside (.exec l.body) hnone _ _)
          ⟨[], rfl, hbody, .nil⟩ fun y hy => hold y hy.1)
    · have hstep : step ⟨.done o, .loopTest l.condition l.body (some l.increment) :: k, s⟩ =
          ⟨.done .normal, k, s⟩ := if_neg htrue
      have hstep' : step ⟨.done (o.rename φ), .loopTest l.condition l.block none :: k, t⟩ =
          ⟨.done .normal, k, t⟩ := if_neg (htruthy.symm ▸ htrue)
      rw [hstep]
      exact catchesUp_of_comes (.last hstep' (not_isOver_of_length (Nat.lt_succ_self _)))
        (.ended (mirrorsThrough_at h (.done .normal) hnone k k) (isOver_done ..)
          fun y hy => hold y hy.1)
  · exact catchesUp_of_comes (.last rfl (not_isOver_of_length (Nat.lt_succ_self _)))
      (.ended (mirrorsThrough_at h (.failed fault) hnone k k) (isOver_failed ..)
        fun y hy => hold y hy.1)

/-- The body has ended. If it has ended by itself, the increment is next in both. -/
theorem catchesUp_body (h : s.MirrorsThrough V φ ρ t) (hskipped : ρ frame = ρ x)
    (hended : (∃ o, control = .done o) ∨ ∃ fault, control = .failed fault)
    (hcontrol : ∀ fn ∈ control.functions, fn.captured ∈ V)
    (hjump : ∀ o, control = .done o → o.asSignal ≠ .nextIteration)
    (hs : Sound since kept ⟨control, .loopBody l.condition l.body (some l.increment) :: k, s⟩)
    (ht : Sound since' kept' ⟨control.rename φ,
      .sequence [.expression l.increment] :: l.leaving frame x k, t⟩)
    (hold : ∀ y, old y → y ∈ V ∧ φ y = y) :
    l.CatchesUp k old (step ⟨control, .loopBody l.condition l.body (some l.increment) :: k, s⟩)
      ⟨control.rename φ, .sequence [.expression l.increment] :: l.leaving frame x k, t⟩ := by
  have hnone : ∀ fn ∈ ([] : List Closure), fn.captured ∈ V := List.forall_mem_nil _
  have hbusy : ¬ IsOver k
      ⟨control.rename φ, .sequence [.expression l.increment] :: l.leaving frame x k, t⟩ :=
    not_isOver_leaving [_] _ _
  have hs' := hs.step.intact
  have ht' := ht.step
  rcases hended with ⟨o, rfl⟩ | ⟨fault, rfl⟩
  · have hsignal' : (o.rename φ).asSignal = o.asSignal.rename φ := Outcome.asSignal_rename o
    have hvalue : ∀ fn ∈ o.asSignal.functions, fn.captured ∈ V := fun fn hfn =>
      hcontrol fn (Outcome.mem_functions_of_asSignal hfn)
    cases hsignal : o.asSignal with
    | normal =>
      have hstep : step ⟨.done o, .loopBody l.condition l.body (some l.increment) :: k, s⟩ =
          ⟨.eval l.increment, .loopNext l.condition l.body (some l.increment) :: k, s⟩ := by
        simp only [step, resume, hsignal]
      have hstep' : step ⟨(Control.done o).rename φ,
          .sequence [.expression l.increment] :: l.leaving frame x k, t⟩ =
            ⟨.exec (.expression l.increment), .sequence [] :: l.leaving frame x k, t⟩ := by
        simp only [Control.rename, step, resume, hsignal', hsignal, Signal.rename]
      rw [hstep]
      exact catchesUp_of_comes
        (.silent hstep' hbusy rfl (.last rfl (not_isOver_leaving [.sequence []] _ _)))
        (.running (.next hskipped) (mirrorsThrough_at h (.eval l.increment) hnone _ _)
          ⟨[], rfl, trivial, .nil⟩ fun y hy => hold y hy.1)
    | exitLoop =>
      have hstep : step ⟨.done o, .loopBody l.condition l.body (some l.increment) :: k, s⟩ =
          ⟨.done .normal, k, s⟩ := by
        simp only [step, resume, hsignal]
      have hstep' : step ⟨(Control.done o).rename φ,
          .sequence [.expression l.increment] :: l.leaving frame x k, t⟩ =
            ⟨.done (.signal .exitLoop), l.leaving frame x k, t⟩ := by
        simp only [Control.rename, step, resume, hsignal', hsignal, Signal.rename]
      rw [hstep] at hs' ⊢
      rw [hstep'] at ht'
      exact catchesUp_out h hskipped (.inl ⟨.signal .exitLoop, rfl⟩) (.inl ⟨.normal, rfl⟩) hnone rfl
        hs' ht' hold (fun _ _ => rfl) fun e he => .silent hstep' hbusy rfl he
    | nextIteration => exact absurd hsignal (hjump o rfl)
    | returned v =>
      have hstep : step ⟨.done o, .loopBody l.condition l.body (some l.increment) :: k, s⟩ =
          ⟨.done (.signal (.returned v)), k, s⟩ := by
        simp only [step, resume, hsignal]
      have hstep' : step ⟨(Control.done o).rename φ,
          .sequence [.expression l.increment] :: l.leaving frame x k, t⟩ =
            ⟨(Control.done (.signal (.returned v))).rename φ, l.leaving frame x k, t⟩ := by
        simp only [Control.rename, step, resume, hsignal', hsignal]
        rfl
      rw [hstep] at hs' ⊢
      rw [hstep'] at ht'
      rw [hsignal] at hvalue
      exact catchesUp_out h hskipped (.inl ⟨.signal (.returned v), rfl⟩)
        (.inl ⟨.signal (.returned v), rfl⟩) hvalue rfl hs' ht' hold (fun _ _ => rfl)
        fun e he => .silent hstep' hbusy rfl he
  · exact catchesUp_out h hskipped (.inr ⟨fault, rfl⟩) (.inr ⟨fault, rfl⟩) hnone rfl hs' ht' hold
      (fun _ _ => rfl) fun e he => .silent rfl hbusy rfl he

/-- The increment has been evaluated. The second run leaves the block before it evaluates the
condition again. -/
theorem catchesUp_next (h : s.MirrorsThrough V φ ρ t) (hskipped : ρ frame = ρ x)
    (hended : (∃ o, control = .done o) ∨ ∃ fault, control = .failed fault)
    (hs : Sound since kept ⟨control, .loopNext l.condition l.body (some l.increment) :: k, s⟩)
    (ht : Sound since' kept' ⟨control.rename φ, .discard :: .sequence [] :: l.leaving frame x k, t⟩)
    (hold : ∀ y, old y → y ∈ V ∧ φ y = y) :
    l.CatchesUp k old (step ⟨control, .loopNext l.condition l.body (some l.increment) :: k, s⟩)
      ⟨control.rename φ, .discard :: .sequence [] :: l.leaving frame x k, t⟩ := by
  have hnone : ∀ fn ∈ ([] : List Closure), fn.captured ∈ V := List.forall_mem_nil _
  have hbusy (control : Control) :
      ¬ IsOver k ⟨control, .discard :: .sequence [] :: l.leaving frame x k, t⟩ ∧
        ¬ IsOver k ⟨control, .sequence [] :: l.leaving frame x k, t⟩ :=
    ⟨not_isOver_leaving [_, _] _ _, not_isOver_leaving [_] _ _⟩
  have hs' := hs.step.intact
  have ht' := ht.step.step
  rcases hended with ⟨o, rfl⟩ | ⟨fault, rfl⟩
  · have hintact : Intact ⟨.done .normal, k, s⟩ :=
      ⟨hs'.links, hs'.current, hs'.held, hs'.scopes⟩
    have hgo : ∀ ψ t', step ⟨(Control.done .normal).rename ψ,
        .loopBody l.condition l.block none :: k, t'⟩ = ⟨(Control.eval l.condition).rename ψ,
          .loopTest l.condition l.block none :: k, t'⟩ := fun _ _ => rfl
    obtain ⟨t', W, ψ, σ, hout, hmirrors, hnamed⟩ := comes_out h hskipped (.inl ⟨.normal, rfl⟩) hnone
      hintact ht' hold (List.forall_mem_nil _) hgo
      (.loopTest l.condition l.body (some l.increment) :: k)
    exact catchesUp_of_comes (.silent rfl (hbusy _).1 rfl (.silent rfl (hbusy _).2 rfl hout))
      (.running .test hmirrors ⟨[], rfl, trivial, .nil⟩ hnamed)
  · exact catchesUp_out h hskipped (.inr ⟨fault, rfl⟩) (.inr ⟨fault, rfl⟩) hnone rfl hs' ht' hold
      (fun _ _ => rfl) fun e he => .silent rfl (hbusy _).1 rfl (.silent rfl (hbusy _).2 rfl he)

/-- **One step of the first run**, as long as the loop is not over. -/
theorem Abreast.catchesUp (h : l.Abreast k old c d) (hc : c.Sound since kept)
    (hd : d.Sound since' kept') (hbody : l.body.Enclosed []) (hbusy : ¬ c.IsOver k) :
    l.CatchesUp k old c.step d := by
  cases h with
  | start pos pos' hold => exact catchesUp_start hc.arena pos pos' hold
  | ended _ hover => exact absurd hover hbusy
  | running hpaired hmirrors henclosed hold =>
    rename_i k₁ k₂ V φ ρ
    by_cases hover : c.IsOver k₁
    · obtain ⟨control, s, t, rfl, rfl, hsession, hcontrol, hended⟩ := hmirrors.at_over hover
      have hjump : ∀ o, control = .done o → o.asSignal ≠ .nextIteration := by
        rintro o rfl hjump
        refine henclosed.not_nextIteration rfl rfl ?_
        rw [Outcome.asSignal_rename, hjump]
        rfl
      cases hpaired with
      | test => exact catchesUp_test hsession hd.arena hended hbody hold
      | body hskipped => exact catchesUp_body hsession hskipped hended hcontrol hjump hc hd hold
      | next hskipped => exact catchesUp_next hsession hskipped hended hc hd hold
    · exact catchesUp_within hpaired hmirrors hc hd henclosed hold hover

/-! ## Runs -/

theorem Abreast.sink (h : l.Abreast k old c d) : d.session.sink = c.session.sink := by
  cases h with
  | start => rfl
  | running _ hmirrors => exact hmirrors.session.mirrors.sink
  | ended hmirrors => exact hmirrors.session.mirrors.sink

/-- Both runs are over at the same time. -/
theorem Abreast.isOver_iff (h : l.Abreast k old c d) : d.IsOver k ↔ c.IsOver k := by
  cases h with
  | start => exact iff_of_false (not_isOver_exec _ k _) (not_isOver_exec _ k _)
  | running hpaired hmirrors =>
    obtain ⟨hbusy, hbusy'⟩ := hpaired.not_isOver hmirrors
    exact iff_of_false hbusy' hbusy
  | ended hmirrors => exact hmirrors.isOver_iff

/-- **Any number of steps of the first run**, as long as the loop is not over. At every moment
before, the second run has written what the first had written at some moment. -/
theorem Abreast.after (h : l.Abreast k old c d) (hc : c.Sound since kept)
    (hd : d.Sound since' kept') (hbody : l.body.Enclosed [])
    (hbusy : ∀ i < n, ¬ (c.after i).IsOver k) :
    ∃ m, n ≤ m ∧ l.Abreast k (fun x => old x ∧ c.Lasts n x ∧ d.Lasts m x) (c.after n) (d.after m) ∧
      ∀ i < m, ¬ (d.after i).IsOver k ∧
        ∃ j < n, (d.after i).session.sink = (c.after j).session.sink := by
  induction n with
  | zero =>
    exact ⟨0, Nat.le_refl 0, h.mono fun x hx => hx.1, fun i hi => absurd hi (Nat.not_lt_zero i)⟩
  | succ n ih =>
    obtain ⟨m, hle, habreast, hquiet⟩ := ih fun i hi => hbusy i (Nat.lt_succ_of_lt hi)
    obtain ⟨j, e, hcomes, hnext⟩ :=
      habreast.catchesUp (hc.after n) (hd.after m) hbody (hbusy n (Nat.lt_succ_self n))
    obtain ⟨rfl, hpos, hsilent⟩ := hcomes.after
    refine ⟨m + j, by omega, ?_, fun i hi => ?_⟩
    · rw [after_succ_eq_step, after_add]
      refine hnext.mono fun x hx => ?_
      obtain ⟨hx, hlasts, hlasts'⟩ := hx
      refine ⟨⟨hx, hlasts.of_succ.1, fun i hi => hlasts' i (Nat.le_add_right_of_le hi)⟩, ?_,
        fun i hi => ?_⟩
      · rw [← after_succ_eq_step]
        exact hlasts.of_succ.2.2
      · rw [← after_add]
        exact hlasts' _ (Nat.add_le_add_left hi m)
    · by_cases hearly : i < m
      · obtain ⟨hbusy', i', hi', hsink⟩ := hquiet i hearly
        exact ⟨hbusy', i', Nat.lt_succ_of_lt hi', hsink⟩
      · obtain ⟨i, rfl⟩ : ∃ i', i = m + i' := ⟨i - m, by omega⟩
        obtain ⟨hbusy', hsink⟩ := hsilent i (by omega)
        rw [after_add]
        exact ⟨hbusy', n, Nat.lt_succ_self n, hsink.trans habreast.sink⟩

/-- If the first run comes to an end, so does the second. -/
theorem Abreast.finishes (h : l.Abreast k old c d) (hc : c.Sound since kept)
    (hd : d.Sound since' kept') (hbody : l.body.Enclosed []) (hn : c.FinishesIn k n) :
    ∃ m, d.FinishesIn k m ∧
      l.Abreast k (fun x => old x ∧ c.Lasts n x ∧ d.Lasts m x) (c.after n) (d.after m) := by
  obtain ⟨m, -, habreast, hquiet⟩ := h.after hc hd hbody hn.2
  exact ⟨m, ⟨habreast.isOver_iff.2 hn.1, fun i hi => (hquiet i hi).1⟩, habreast⟩

/-- Any number of steps of the second run, as long as its loop is not over: the first run can be
followed until the second has taken them. -/
theorem Abreast.reaches (h : l.Abreast k old c d) (hc : c.Sound since kept)
    (hd : d.Sound since' kept') (hbody : l.body.Enclosed [])
    (hbusy : ∀ i < m, ¬ (d.after i).IsOver k) :
    ∃ n m', (∀ i < n, ¬ (c.after i).IsOver k) ∧ m ≤ m' ∧
      l.Abreast k (fun x => old x ∧ c.Lasts n x ∧ d.Lasts m' x) (c.after n) (d.after m') ∧
        ∀ i < m', ¬ (d.after i).IsOver k ∧
          ∃ j < n, (d.after i).session.sink = (c.after j).session.sink := by
  -- the first run is followed for `m` steps, or to its end
  by_cases hfirst : ∀ i < m, ¬ (c.after i).IsOver k
  · obtain ⟨m', hle, hlater⟩ := h.after hc hd hbody hfirst
    exact ⟨m, m', hfirst, hle, hlater⟩
  · obtain ⟨n, -, hover, hbefore⟩ := exists_first_over hfirst
    obtain ⟨m', -, habreast, hquiet⟩ := h.after hc hd hbody hbefore
    refine ⟨n, m', hbefore, ?_, habreast, hquiet⟩
    by_contra hlt
    exact hbusy m' (Nat.lt_of_not_le hlt) (habreast.isOver_iff.2 hover)

end ForLoop

/-! ## What both leave behind -/

/-- Names have the same values in frames that are found in both sessions. -/
theorem names_through {held held' : Closure → Prop} (h : s.MirrorsThrough V φ ρ t)
    (hs : s.arena.Sound since held) (ht : t.arena.Sound since' held') (hx : x ∈ V)
    (name : String) :
    (t.arena.enter (φ x)).get? name = ((s.arena.enter x).get? name).map (Value.rename φ) ∧
      ∀ v, (s.arena.enter x).get? name = some v → ∀ fn ∈ v.functions, fn.captured ∈ V := by
  obtain ⟨hlive, hlive'⟩ := h.mirrors.arena.live hx
  have hmirrors : (s.arena.enter x).Mirrors V φ ((t.arena.enter (φ x)).skip ρ) :=
    { h.mirrors.arena.toCorresponds with
      inside := hx
      current := h.apart x hx }
  have hskip := (h.skips.enter (φ x)).get? (ht.enter (Arena.live_skip_iff.1 hlive')).grounded name
  obtain ⟨hget, hbound⟩ := hmirrors.get? (hs.enter hlive).grounded name
  exact ⟨hskip.symm.trans hget, hbound⟩

namespace Configuration

/-- Frames are there all the time if what is below refers to them: the top-level frame, those that
are active, and those that functions on the stack or in the hands of the host have captured. -/
theorem lasts_below (h : c.Sound since kept) (hbusy : ∀ i < n, ¬ (c.after i).IsOver c.stack)
    (hx : x = Arena.global ∨ x ∈ c.session.arena.active ∨
      ∃ fn, (fn ∈ Stack.functions c.stack ∨ kept fn) ∧ x = fn.captured) : c.Lasts n x := by
  intro m hm
  have hsound := h.after m
  obtain ⟨top, htop⟩ := stack_after (k := c.stack) (List.nil_append _).symm
    fun i hi => hbusy i (Nat.lt_of_lt_of_le hi hm)
  rcases hx with rfl | hx | ⟨fn, hfn, rfl⟩
  · exact hsound.arena.live_toplevel
  · refine hsound.arena.active x ?_
    rw [h.active_eq] at hx
    rw [hsound.active_eq, restores_after, htop, scopes_append, List.map_append, List.append_assoc]
    exact List.mem_append_right _ hx
  · refine (hsound.arena.carries fn (.inl (hfn.imp_left fun hfn => .inr ?_))).live
    rw [htop, Stack.functions_append]
    exact List.mem_append_right _ hfn

/-- The machines `c` and `d` have come to the same: up to the names that `φ` gives to the frames in
`V`, they have the same control, and every name has the same value in each of these frames, which
are all that matters to these values. They have written the same, stand in the same place, and have
the same settings. -/
structure Matches (V : Set Handle) (φ : Handle → Handle) (c d : Configuration) : Prop where
  control : d.control = c.control.rename φ
  carried : ∀ fn ∈ c.control.functions, fn.captured ∈ V
  names : ∀ x ∈ V, ∀ name, (d.session.arena.enter (φ x)).get? name =
    ((c.session.arena.enter x).get? name).map (Value.rename φ)
  bound : ∀ x ∈ V, ∀ name v, (c.session.arena.enter x).get? name = some v →
    ∀ fn ∈ v.functions, fn.captured ∈ V
  injective : V.InjOn φ
  sink : d.session.sink = c.session.sink
  standing : d.session.standing = c.session.standing
  nextFunction : d.session.arena.nextFunction = c.session.arena.nextFunction
  policy : d.session.arena.policy = c.session.arena.policy
  settings : c.session.SameSettings d.session

end Configuration

/-- A jump that leaves a loop. -/
def Signal.leaves : Signal → Bool
  | .exitLoop => true
  | .returned _ => true
  | _ => false

namespace ForLoop

theorem Abreast.matches (h : l.Abreast k old c d) (hc : c.Sound since kept)
    (hd : d.Sound since' kept') (hover : c.IsOver k)
    (hstanding : d.session.standing = c.session.standing)
    (hsettings : c.session.SameSettings d.session) :
    ∃ V φ, c.Matches V φ d ∧ ∀ x, old x → x ∈ V ∧ φ x = x := by
  cases h with
  | start => exact absurd hover (not_isOver_exec _ k _)
  | running hpaired hmirrors => exact absurd hover (hpaired.not_isOver hmirrors).1
  | @ended _ _ V φ ρ hmirrors _ hold =>
    have hsession := hmirrors.session
    exact ⟨V, φ,
      { control := hmirrors.control
        carried := hmirrors.carried
        names := fun x hx name => (names_through hsession hc.arena hd.arena hx name).1
        bound := fun x hx name => (names_through hsession hc.arena hd.arena hx name).2
        injective := hsession.mirrors.arena.injective
        sink := hsession.mirrors.sink
        standing := hstanding
        nextFunction := hsession.mirrors.arena.nextFunction
        policy := hsession.mirrors.arena.policy
        settings := hsettings }, hold⟩

/-- Two runs `c` and `d`, which begin in the session `s` with `k` to do afterwards, do the same.

One is finished if the other is, with the same up to names; then every frame that has been there all
the time in both has its own name, and those that the rest of the program refers to have been there.
As long as they are not finished, each has at any moment written what the other has at some moment.
And when a body is left by a jump out of the loop, no increment is evaluated in either. -/
structure SameRuns (l : ForLoop) (since : Nat) (k : Stack) (s : Session) (c d : Configuration) :
    Prop where
  finished : (∃ n, c.FinishesIn k n) ↔ ∃ m, d.FinishesIn k m
  same : ∀ n m, c.FinishesIn k n → d.FinishesIn k m → ∃ V φ, (c.after n).Matches V φ (d.after m) ∧
    ∀ x, c.Lasts n x → d.Lasts m x → x ∈ V ∧ φ x = x
  lasts : ∀ x, (x = Arena.global ∨ x ∈ s.arena.active ∨
      ∃ fn, (fn ∈ Stack.functions k ∨ s.Owns since fn) ∧ x = fn.captured) →
    (∀ n, c.FinishesIn k n → c.Lasts n x) ∧ ∀ m, d.FinishesIn k m → d.Lasts m x
  written : ∀ n, (∀ i < n, ¬ (c.after i).IsOver k) →
    ∃ m, (∀ i < m, ¬ (d.after i).IsOver k) ∧ (d.after m).session.sink = (c.after n).session.sink
  written' : ∀ m, (∀ i < m, ¬ (d.after i).IsOver k) →
    ∃ n, (∀ i < n, ¬ (c.after i).IsOver k) ∧ (d.after m).session.sink = (c.after n).session.sink
  left : ∀ n o t, c.after n = ⟨.done o, .loopBody l.condition l.body (some l.increment) :: k, t⟩ →
    o.asSignal.leaves = true → (c.after (n + 1)).IsOver k
  left' : ∀ m o x y t,
    d.after m = ⟨.done o, .sequence [.expression l.increment] :: l.leaving x y k, t⟩ →
    o.asSignal.leaves = true →
      (d.after (m + 3)).IsOver k ∧ ∀ i ≤ 3, ∀ e, (d.after (m + i)).control ≠ .eval e

theorem isOver_of_left (ho : o.asSignal.leaves = true) :
    IsOver k (step ⟨.done o, .loopBody l.condition l.body (some l.increment) :: k, t⟩) := by
  cases hsignal : o.asSignal with
  | exitLoop =>
    simp only [step, resume, hsignal]
    exact isOver_done ..
  | returned v =>
    simp only [step, resume, hsignal]
    exact isOver_done ..
  | normal =>
    rw [hsignal] at ho
    cases ho
  | nextIteration =>
    rw [hsignal] at ho
    cases ho

theorem isOver_of_left' (ho : o.asSignal.leaves = true)
    (hd : d = ⟨.done o, .sequence [.expression l.increment] :: l.leaving frame x k, t⟩) :
    (d.after 3).IsOver k ∧ ∀ i ≤ 3, ∀ e, (d.after i).control ≠ .eval e := by
  -- the jump passes the increment
  have hstep : d.step = ⟨.done (.signal o.asSignal), l.leaving frame x k, t⟩ := by
    subst hd
    cases hsignal : o.asSignal with
    | normal =>
      rw [hsignal] at ho
      cases ho
    | _ => simp only [step, resume, hsignal]
  have hlater : ∀ j : Signal, j.leaves = true → ∀ u : Session,
      (after 2 ⟨.done (.signal j), l.leaving frame x k, u⟩).IsOver k ∧
        ∀ i ≤ 2, ∀ e, (after i ⟨.done (.signal j), l.leaving frame x k, u⟩).control ≠ .eval e := by
    intro j hj u
    cases j with
    | normal => cases hj
    | nextIteration => cases hj
    | exitLoop =>
      refine ⟨isOver_done .normal k _, fun i hi e he => ?_⟩
      obtain rfl | rfl | rfl : i = 0 ∨ i = 1 ∨ i = 2 := by omega
      all_goals cases he
    | returned v =>
      refine ⟨isOver_done (.signal (.returned v)) k _, fun i hi e he => ?_⟩
      obtain rfl | rfl | rfl : i = 0 ∨ i = 1 ∨ i = 2 := by omega
      all_goals cases he
  obtain ⟨hover, hcontrol⟩ := hlater o.asSignal ho t
  refine ⟨?_, fun i hi e => ?_⟩
  · rw [after_succ, hstep]
    exact hover
  · cases i with
    | zero =>
      subst hd
      exact fun he => by cases he
    | succ i =>
      rw [after_succ, hstep]
      exact hcontrol i (Nat.le_of_succ_le_succ hi) e

/-- Runs that are at the same point at every moment do the same. -/
theorem sameRuns {s : Session} {c d : Configuration} (hstack : c.stack = k) (hstack' : d.stack = k)
    (hsession : c.session = s) (hsession' : d.session = s)
    (hc : c.Sound since (s.Owns since)) (hd : d.Sound since (s.Owns since))
    (hbody : l.body.Enclosed []) (h : l.Abreast k s.arena.Live c d) :
    l.SameRuns since k s c d := by
  constructor
  case finished =>
    refine ⟨fun ⟨n, hn⟩ => ?_, fun ⟨m, hm⟩ => ?_⟩
    · obtain ⟨m, hm, -⟩ := h.finishes hc hd hbody hn
      exact ⟨m, hm⟩
    · -- otherwise the second run would be busy for more than `m` steps
      by_contra hnone
      have hbusy : ∀ i < m + 1, ¬ (c.after i).IsOver k := by
        by_contra hover
        obtain ⟨n, -, hn⟩ := exists_first_over hover
        exact hnone ⟨n, hn⟩
      obtain ⟨m', hle, -, hquiet⟩ := h.after hc hd hbody hbusy
      exact (hquiet m hle).1 hm.1
  case same =>
    intro n m hn hm
    obtain ⟨m', hm', habreast⟩ := h.finishes hc hd hbody hn
    obtain rfl := hm'.unique hm
    have hstanding : (c.after n).session.standing = c.session.standing :=
      standing_after n (hstack.trans (List.nil_append k).symm) hn.2 hn.1.1
    have hstanding' : (d.after m').session.standing = d.session.standing :=
      standing_after m' (hstack'.trans (List.nil_append k).symm) hm.2 hm.1.1
    have hsettings : (c.after n).session.SameSettings (d.after m').session := by
      have hfirst := settings_after c n
      have hsecond := settings_after d m'
      rw [hsession] at hfirst
      rw [hsession'] at hsecond
      exact ⟨hsecond.pending.trans hfirst.pending.symm, hsecond.host.trans hfirst.host.symm,
        hsecond.maxDepth.trans hfirst.maxDepth.symm⟩
    rw [hsession] at hstanding
    rw [hsession'] at hstanding'
    obtain ⟨V, φ, hmatches, hold⟩ := habreast.matches (hc.after n) (hd.after m') hn.1
      (hstanding'.trans hstanding.symm) hsettings
    exact ⟨V, φ, hmatches, fun x hx hx' =>
      hold x ⟨hsession ▸ hx 0 (Nat.zero_le n), hx, hx'⟩⟩
  case lasts =>
    intro x hx
    subst hsession
    constructor
    · intro n hn
      exact lasts_below hc (hstack.symm ▸ hn.2) (hstack.symm ▸ hx)
    · intro m hm
      refine lasts_below hd (hstack'.symm ▸ hm.2) ?_
      rw [hstack', hsession']
      exact hx
  case written =>
    intro n hn
    obtain ⟨m, -, habreast, hquiet⟩ := h.after hc hd hbody hn
    exact ⟨m, fun i hi => (hquiet i hi).1, habreast.sink⟩
  case written' =>
    intro m hm
    obtain ⟨n, m', hn, hle, habreast, hquiet⟩ := h.reaches hc hd hbody hm
    rcases Nat.lt_or_eq_of_le hle with hlt | rfl
    · obtain ⟨-, j, hj, hsink⟩ := hquiet m hlt
      exact ⟨j, fun i hi => hn i (Nat.lt_trans hi hj), hsink⟩
    · exact ⟨n, hn, habreast.sink⟩
  case left =>
    intro n o t hn ho
    rw [after_succ_eq_step, hn]
    exact isOver_of_left ho
  case left' =>
    intro m o x y t hm ho
    simp only [after_add]
    exact isOver_of_left' ho hm

end ForLoop

/-- **The increment of a loop does what one expects of it.** At any moment of any run, whatever
remains to be done then, a loop with an increment is the same as a loop whose body is a block with
the increment at its end. The body is one that the grammar admits, and no jump in it skips the rest
of an iteration of this loop. -/
theorem increment_ends_iteration {m : Configuration} {isOpen : Bool} {read : List Token}
    (h : Moment since m) (l : ForLoop) (hbody : Derivation.Statement true isOpen l.body read)
    (hjump : ∀ pos, ¬ (Stmt.nextIteration pos).Inside l.body) (pos pos' : Position) :
    l.SameRuns since m.stack m.session ⟨.exec (l.withIncrement pos), m.stack, m.session⟩
      ⟨.exec (l.withBlock pos'), m.stack, m.session⟩ := by
  have hsound := sound_moment h
  have hexec (st : Stmt) : Sound since (m.session.Owns since) ⟨.exec st, m.stack, m.session⟩ := by
    refine ⟨hsound.arena.mono fun fn hfn => .inl ?_, hsound.scopes, hsound.kept⟩
    rcases hfn with (hfn | hfn) | hfn
    · cases hfn
    · exact .inl (.inr hfn)
    · exact .inr hfn
  have henclosed : l.body.Enclosed [] :=
    ⟨fun hdeclares => absurd hdeclares hbody.not_declares, fun p hp => absurd hp (hjump p)⟩
  exact ForLoop.sameRuns rfl rfl rfl rfl (hexec _) (hexec _) henclosed
    (.start pos pos' fun x hx => hx)

/-- A loop whose body makes a function, has a loop of its own with a jump in it, and leaves the loop
in its second turn. -/
def leftEarly : ForLoop where
  condition := .binary .less (.ident "i" .start) (.literal (.number 3) .start) .start
  increment :=
    .assign "i" (.binary .add (.ident "i" .start) (.literal (.number 1) .start) .start) .start
  body := .block [
    .function ⟨"f", [], [.giveBack (some (.ident "i" .start)) .start], .start⟩,
    .expression (.assign "kept" (.ident "f" .start) .start),
    .loop (.ident "again" .start) (.block [
      .expression (.assign "again" (.literal (.bool false) .start) .start),
      .nextIteration .start]) none .start,
    .branch (.binary .equal (.ident "i" .start) (.literal (.number 1) .start) .start)
      (.exitLoop .start) none .start]

theorem derivation_leftEarly :
    ∃ isOpen read, Derivation.Statement true isOpen leftEarly.body read := by
  let written (kinds : List TokenKind) : Cursor :=
    ⟨kinds.map fun kind => ⟨kind, "", .start⟩, .start⟩
  have hitem (kinds : List TokenKind) {st : Stmt}
      (h : Grammar.item 20 true (written kinds) = .ok st ⟨[], .start⟩) :
      ∃ read, Derivation.Item true st read := by
    obtain ⟨read, -, hderived⟩ := (Grammar.statementsSound 20).item h
    exact ⟨read, hderived⟩
  obtain ⟨_, hfunction⟩ := hitem [.keyword .funKw, .ident "f", .punct .leftParen,
    .punct .rightParen, .punct .leftBrace, .keyword .returnKw, .ident "i", .punct .semicolon,
    .punct .rightBrace] rfl
  obtain ⟨_, hkept⟩ := hitem [.ident "kept", .punct .equal, .ident "f",
    .punct .semicolon] rfl
  obtain ⟨_, hagain⟩ := hitem [.keyword .whileKw, .punct .leftParen, .ident "again",
    .punct .rightParen, .punct .leftBrace, .ident "again", .punct .equal, .keyword .falseKw,
    .punct .semicolon, .keyword .continueKw, .punct .semicolon, .punct .rightBrace] rfl
  obtain ⟨_, hlast⟩ := hitem [.keyword .ifKw, .punct .leftParen, .ident "i",
    .punct .equalEqual, .number 1, .punct .rightParen, .keyword .breakKw, .punct .semicolon] rfl
  have hitems := Derivation.Items.cons hfunction (.cons hkept (.cons hagain (.cons hlast .nil)))
  exact ⟨_, _, .block (l := ⟨.punct .leftBrace, "", .start⟩)
    (r := ⟨.punct .rightBrace, "", .start⟩) rfl hitems rfl⟩

theorem not_inside_leftEarly (pos : Position) :
    ¬ (Stmt.nextIteration pos).Inside leftEarly.body := by
  intro hinside
  cases hinside with
  | block hmem hpart =>
    -- the only jump to a next iteration is inside the inner loop
    simp only [List.mem_cons, List.not_mem_nil, or_false] at hmem
    rcases hmem with rfl | rfl | rfl | rfl
    · cases hpart
    · cases hpart
    · cases hpart
    · cases hpart with
      | whenTrue hjump => cases hjump

/-- Both loops are over after some steps, whatever the frames for the increment cost. -/
theorem increment_ends_iteration_leftEarly :
    let m := Configuration.after 11 ⟨.done .normal,
      [.sequence [.declare "i" (some (.literal (.number 0) .start)) .start,
        .declare "kept" none .start,
        .declare "again" (some (.literal (.bool true) .start)) .start]],
      { Session.new (.new none) with pending := .normal }⟩
    let c : Configuration := ⟨.exec (leftEarly.withIncrement .start), m.stack, m.session⟩
    let d : Configuration := ⟨.exec (leftEarly.withBlock .start), m.stack, m.session⟩
    Moment 0 m ∧
      (∃ isOpen read, Derivation.Statement true isOpen leftEarly.body read) ∧
      (∀ pos, ¬ (Stmt.nextIteration pos).Inside leftEarly.body) ∧
      leftEarly.SameRuns 0 m.stack m.session c d ∧
      (∃ n, c.FinishesIn m.stack n) ∧ ∃ n, d.FinishesIn m.stack n := by
  intro m c d
  have hmoment : Moment 0 m := ⟨.new (.new none), .interpret _, _, 11, .new _, rfl, rfl⟩
  obtain ⟨isOpen, read, hbody⟩ := derivation_leftEarly
  have hsame : leftEarly.SameRuns 0 m.stack m.session c d :=
    increment_ends_iteration hmoment leftEarly hbody not_inside_leftEarly .start .start
  have hends : (c.after 84).IsOver m.stack :=
    isOver_nil_iff.2 (show (c.after 84).ended?.isSome = true by decide +kernel)
  obtain ⟨n, -, hn⟩ := exists_first_over (n := 85) fun hbusy => hbusy 84 (Nat.lt_succ_self 84) hends
  exact ⟨hmoment, ⟨isOpen, read, hbody⟩, not_inside_leftEarly, hsame, ⟨n, hn⟩,
    hsame.finished.1 ⟨n, hn⟩⟩

end Script
