import Script.Proofs.Arena.Soundness
import Script.Proofs.Machine.Effects
import Script.Proofs.Session.Requests

/-!
# No step leaves a handle dangling

- `Nested`: the scopes that remain to be left are the active frames, innermost first, each entered
  from the next.
- `Configuration.Sound`: the invariant of a running machine.
- `Sound.step`: one step keeps it, whatever it does to the frames.
-/

namespace Script

/-! ## Scopes and active frames -/

/-- The innermost scopes are those that the stack leaves: their frames are active, latest first,
and each was entered from the one that is innermost after it. -/
inductive Nested : List Scope → Handle → List Handle → Prop
  | base {active : List Handle} : Nested [] (active.headD Arena.global) active
  | scope {frame caller : Handle} {calls : Nat} {scopes : List Scope} {older : List Handle} :
    Nested scopes caller older → Nested (⟨frame, caller, calls⟩ :: scopes) frame (frame :: older)

variable {scopes : List Scope} {current caller : Handle} {active : List Handle} {calls : Nat}

/-- The innermost scope is the frame that became active last. -/
theorem Nested.current_eq (h : Nested scopes current active) :
    current = active.headD Arena.global := by
  cases h <;> rfl

/-- The innermost scope is the first of those that remain to be left. -/
theorem Nested.current_eq_frame {scope : Scope} (h : Nested (scope :: scopes) current active) :
    current = scope.frame := by
  cases h
  rfl

/-- The frames that scopes were entered from are active, or the top-level frame. -/
theorem Nested.entered_from (h : Nested scopes current active) :
    ∀ scope ∈ scopes, scope.caller ∈ active ∨ scope.caller = Arena.global := by
  induction h with
  | base => exact fun scope hscope => nomatch hscope
  | @scope frame caller calls scopes older hrest ih =>
    intro scope hscope
    rcases List.mem_cons.1 hscope with rfl | hscope
    · show caller ∈ frame :: older ∨ caller = Arena.global
      rw [hrest.current_eq]
      cases older with
      | nil => exact .inr rfl
      | cons x older => exact .inl (List.mem_cons_of_mem _ List.mem_cons_self)
    · exact (ih scope hscope).imp (List.mem_cons_of_mem _) id

/-- The frames of scopes are active. -/
theorem Nested.frame (h : Nested scopes current active) :
    ∀ scope ∈ scopes, scope.frame ∈ active := by
  induction h with
  | base => exact fun scope hscope => nomatch hscope
  | scope _ ih =>
    intro scope hscope
    rcases List.mem_cons.1 hscope with rfl | hscope
    · exact List.mem_cons_self
    · exact List.mem_cons_of_mem _ (ih scope hscope)

namespace Arena

variable {a : Arena} {since : Nat} {held : Closure → Prop} {outside : List Closure}
  {frame : Handle}

/-- What every definition of an argument keeps, binding parameters keeps, also if it fails
midway. -/
theorem bindParams_induction {P : Arena → Prop} (params : List Param) {args : List Value}
    (hdefine : ∀ b name, ∀ v ∈ args, P b → P (b.define name v).1) (h : P a) :
    P (Configuration.bindParams a params args).1 := by
  induction params generalizing a args with
  | nil => exact h
  | cons p ps ih =>
    cases args with
    | nil => exact h
    | cons v vs =>
      have hfirst := hdefine a p.name v List.mem_cons_self h
      unfold Configuration.bindParams
      split
      · rename_i b hb
        rw [hb] at hfirst
        exact ih (fun b name w hw => hdefine b name w (List.mem_cons_of_mem _ hw)) hfirst
      · rename_i b fault hb
        rw [hb] at hfirst
        exact hfirst

/-- Binding parameters changes variables only. -/
theorem bindParams_eq (a : Arena) (params : List Param) (args : List Value) :
    (Configuration.bindParams a params args).1.active = a.active ∧
      (Configuration.bindParams a params args).1.current = a.current ∧
      (Configuration.bindParams a params args).1.nextFunction = a.nextFunction := by
  refine bindParams_induction
    (P := fun b => b.active = a.active ∧ b.current = a.current ∧ b.nextFunction = a.nextFunction)
    params (fun b name v _ hb => ?_) ⟨rfl, rfl, rfl⟩
  rwa [active_define, current_define, nextFunction_define]

theorem live_bindParams_iff {x : Handle} (params : List Param) (args : List Value) :
    (Configuration.bindParams a params args).1.Live x ↔ a.Live x :=
  bindParams_induction (P := fun b => b.Live x ↔ a.Live x) params
    (fun _ _ _ _ hb => live_define_iff.trans hb) Iff.rfl

theorem Sound.bindParams (h : a.Sound since held) (params : List Param) {args : List Value}
    (hargs : ∀ v ∈ args, ∀ fn ∈ v.functions, held fn) :
    (Configuration.bindParams a params args).1.Sound since held :=
  bindParams_induction (P := fun b => b.Sound since held) params
    (fun _ name v hv hb => hb.define (fun fn hfn => .inl (hargs v hv fn hfn)) name) h

/-- Binding parameters in a frame that is there fails only because a name is taken. -/
theorem bindParams_ne_undefined (h : a.Live a.current) (params : List Param) (args : List Value)
    (name : String) (pos : Position) :
    (Configuration.bindParams a params args).2 ≠ some ⟨.undefined name, pos⟩ := by
  induction params generalizing a args with
  | nil => exact fun h => nomatch h
  | cons p ps ih =>
    cases args with
    | nil => exact fun h => nomatch h
    | cons v vs =>
      have hlive : (a.define p.name v).1.Live a.current := live_define_iff.2 h
      have hcurrent := current_define a p.name v
      have hne := define_ne_undefined h p.name name v
      unfold Configuration.bindParams
      split
      · rename_i b hb
        rw [hb] at hlive hcurrent
        exact ih (hcurrent ▸ hlive) vs
      · rename_i b fault hb
        rw [hb] at hne
        intro heq
        obtain ⟨rfl, -⟩ := Diagnostic.mk.inj (Option.some.inj heq)
        exact hne rfl

theorem current_leaveFrame (a : Arena) (frame caller : Handle) (outside : List Closure) :
    (Configuration.leaveFrame a frame caller outside).current = caller :=
  current_release (a.enter caller) frame outside

/-- Leaving the innermost scope keeps what is referred to. -/
theorem Sound.leaveFrame (h : a.Sound since held)
    (hnested : Nested (⟨frame, caller, calls⟩ :: scopes) a.current a.active)
    (hout : ∀ fn, held fn → fn ∈ outside) :
    (Configuration.leaveFrame a frame caller outside).Sound since held ∧
      Nested scopes (Configuration.leaveFrame a frame caller outside).current
        (Configuration.leaveFrame a frame caller outside).active := by
  have hactive : ∃ older, a.active = frame :: older ∧ Nested scopes caller older := by
    generalize a.current = current at hnested
    generalize a.active = active at hnested ⊢
    cases hnested with
    | scope hrest => exact ⟨_, rfl, hrest⟩
  obtain ⟨older, hactive, hrest⟩ := hactive
  -- the frame that the scope was entered from is active still, or the top-level frame
  have hcaller : a.Live caller ∧ caller ≠ frame := by
    have hframe : frame ∉ older := (List.nodup_cons.1 (hactive ▸ h.distinct)).1
    rw [hrest.current_eq]
    cases older with
    | nil =>
      refine ⟨h.live_toplevel, fun heq => h.inner ?_⟩
      rw [hactive, show Arena.global = frame from heq]
      exact List.mem_cons_self
    | cons x older =>
      refine ⟨h.active x (hactive ▸ List.mem_cons_of_mem _ List.mem_cons_self), fun heq => ?_⟩
      have hx : x = frame := heq
      exact hframe (hx ▸ List.mem_cons_self)
  refine ⟨(h.enter hcaller.1).release hactive hcaller.2 hout, ?_⟩
  have holder : (Configuration.leaveFrame a frame caller outside).active = older := by
    refine (active_release ..).trans ?_
    show a.active.erase frame = older
    rw [hactive, List.erase_cons_head]
  rw [current_leaveFrame, holder]
  exact hrest

end Arena

/-! ## The invariant of the machine -/

namespace Configuration

/-- No handle dangles in a configuration: not in its frames, not on the stack, and not in the
functions that the control, the stack, or the session hold. Of the last only those matter that are
`kept`; functions from before the variables were reset may be held as well. -/
structure Sound (since : Nat) (kept : Closure → Prop) (c : Configuration) : Prop where
  arena : c.session.arena.Sound since fun fn => c.Holds fn ∨ kept fn
  scopes : Nested (Stack.scopes c.stack) c.session.arena.current c.session.arena.active
  kept : ∀ fn, kept fn → fn ∈ c.session.held

variable {since : Nat} {kept : Closure → Prop} {c d : Configuration}

/-- Each change keeps the invariant. -/
theorem Sound.change (h : c.Sound since kept) (hchange : c.Change d) :
    d.session.arena.Sound since (fun fn => d.Holds fn ∨ kept fn) ∧
      Nested (Stack.scopes d.stack) d.session.arena.current d.session.arena.active := by
  cases hchange with
  | none arena depth scopes holds =>
    rw [arena, scopes]
    refine ⟨h.arena.mono fun fn hfn => ?_, h.scopes⟩
    rcases hfn with hfn | hfn
    · exact (holds fn hfn).imp .inl id
    · exact .inl (.inr hfn)
  | put x name v arena value depth scopes holds =>
    rw [arena, scopes]
    have hput := h.arena.put (fun fn hfn => .inl (.inl (value fn hfn))) x name
    exact ⟨hput.mono fun fn hfn => .inl (hfn.imp (holds fn) id), h.scopes⟩
  | make decl arena depth scopes holds =>
    rw [arena, scopes, Arena.active_define, Arena.current_define, Arena.active_closure,
      Arena.current_closure]
    -- the new function is held until it has its name
    have hmake := (h.arena.closure decl).define
      (v := .function (c.session.arena.closure decl).2)
      (fun fn hfn => .inl (.inr (List.mem_singleton.1 hfn))) decl.name
    exact ⟨hmake.mono fun fn hfn => .inl (.inl (hfn.imp (holds fn) id)), h.scopes⟩
  | enter parent params args calls within arena values depth scopes holds =>
    have hparent : c.session.arena.Live parent := by
      rcases within with rfl | ⟨fn, hfn, rfl⟩
      · exact h.arena.current
      · exact (h.arena.carries fn (.inl (.inl hfn))).live
    have hpushed := (h.arena.pushed hparent).bindParams params
      fun v hv fn hfn => .inl (values v hv fn hfn)
    rw [arena, scopes, (Arena.bindParams_eq ..).1, (Arena.bindParams_eq ..).2.1]
    refine ⟨hpushed.mono fun fn hfn => .inl (hfn.imp (holds fn) id), ?_⟩
    show Nested _ (c.session.arena.push parent).2 (c.session.arena.push parent).1.active
    rw [Arena.active_push]
    exact .scope h.scopes
  | leave frame caller calls outside arena told depth scopes holds =>
    rw [arena]
    -- the scope that is left is the innermost of those on the stack
    have hnested := h.scopes
    rw [scopes] at hnested
    have hleft : c.session.arena.Sound since fun fn => d.Holds fn ∨ kept fn :=
      h.arena.mono fun fn hfn => .inl (hfn.imp (holds fn) id)
    exact hleft.leaveFrame hnested fun fn hfn => told fn (hfn.imp id (h.kept fn))

/-- No change takes a function's number back. -/
theorem Change.nextFunction_le (h : c.Change d) :
    c.session.arena.nextFunction ≤ d.session.arena.nextFunction := by
  cases h with
  | none arena => exact Nat.le_of_eq (by rw [arena])
  | put x name v arena =>
    rw [arena]
    exact Nat.le_refl _
  | make decl arena =>
    rw [arena, Arena.nextFunction_define, Arena.nextFunction_closure]
    omega
  | enter parent params args calls within arena =>
    rw [arena, (Arena.bindParams_eq ..).2.2]
    exact Nat.le_of_eq (Arena.nextFunction_push ..).symm
  | leave frame caller calls outside arena =>
    rw [arena]
    exact Nat.le_of_eq
      (Arena.nextFunction_release (c.session.arena.enter caller) frame outside).symm

/-- **One step leaves no handle dangling.** -/
theorem Sound.step (h : c.Sound since kept) : c.step.Sound since kept := by
  have heffect := effect_step c
  obtain ⟨harena, hscopes⟩ := h.change heffect.change
  exact ⟨harena, hscopes, fun fn hfn => heffect.settings.held ▸ h.kept fn hfn⟩

theorem nextFunction_le_after (c : Configuration) (n : Nat) :
    c.session.arena.nextFunction ≤ (c.after n).session.arena.nextFunction := by
  induction n generalizing c with
  | zero => exact Nat.le_refl _
  | succ n ih => exact Nat.le_trans (effect_step c).change.nextFunction_le (ih c.step)

/-- No step changes a setting. -/
theorem settings_after (c : Configuration) (n : Nat) :
    c.session.SameSettings (c.after n).session := by
  induction n generalizing c with
  | zero => exact ⟨rfl, rfl, rfl⟩
  | succ n ih => exact (effect_step c).settings.trans (ih c.step)

/-- No number of steps leaves a handle dangling. -/
theorem Sound.after (h : c.Sound since kept) (n : Nat) : (c.after n).Sound since kept :=
  after_induction (P := Sound since kept) (fun _ => Sound.step) h n

/-- No run changes a setting. -/
theorem settings_run {n : Nat} {e : Except Diagnostic Outcome} {t : Session}
    (hrun : c.run n = some (e, t)) : c.session.SameSettings t := by
  obtain ⟨rfl, -⟩ := after_of_run hrun
  exact settings_after c n

/-- A run that ends leaves no handle dangling: the functions of its outcome are held as well. -/
theorem Sound.run (h : c.Sound since kept) {steps : Nat} {e : Except Diagnostic Outcome}
    {t : Session}
    (hrun : c.run steps = some (e, t)) :
    t.arena.Sound since (fun fn => (∃ o, e = .ok o ∧ fn ∈ o.functions) ∨ kept fn) ∧
      t.arena.current = t.arena.active.headD Arena.global ∧
      c.session.arena.nextFunction ≤ t.arena.nextFunction := by
  rw [run_eq_after] at hrun
  have hend := h.after steps
  have hnext := nextFunction_le_after c steps
  rcases ended?_eq_some hrun with ⟨o, rfl, hc⟩ | ⟨d, rfl, hc⟩
  · rw [hc] at hend hnext
    refine ⟨hend.arena.mono fun fn hfn => .inl ?_, hend.scopes.current_eq, hnext⟩
    rcases hfn with ⟨o', ho, hfn⟩ | hfn
    · exact .inl (.inl (Except.ok.inj ho ▸ hfn))
    · exact .inr hfn
  · rw [hc] at hend hnext
    refine ⟨hend.arena.mono fun fn hfn => .inl (.inr ?_), hend.scopes.current_eq, hnext⟩
    exact hfn.resolve_left fun ⟨o, ho, _⟩ => nomatch ho

end Configuration

end Script
