import Script.Proofs.Machine.Courses
import Script.Proofs.Machine.Soundness

/-!
# Every way out restores the scopes

Blocks and calls save the innermost scope, the list of active frames and the depth of calls, and
restore them however they are left. What the stack still has to restore is the same after every
step, in whatever state the machine is.

- `Standing`: the innermost scope, the active frames and the depth of calls.
- `Configuration.restores`: the standing once given scopes have been left.
- `restores_step`: no step changes what will be restored; `standing_after` follows an expression or
  statement, nested in whatever remains to be done, to its end.
-/

namespace Script

/-- Where an interpreter stands: its innermost scope, its active frames, its calls in progress. -/
structure Standing where
  current : Handle
  active : List Handle
  depth : Nat
  deriving DecidableEq

/-- Where a session stands. -/
def Session.standing (s : Session) : Standing := ⟨s.arena.current, s.arena.active, s.depth⟩

/-- Where an interpreter stands after it has left a scope. -/
def Standing.leave (st : Standing) (scope : Scope) : Standing :=
  ⟨scope.caller, st.active.erase scope.frame, st.depth - scope.calls⟩

/-- The frames of the scopes to be left are the latest active ones; the others are active once these
scopes have been left. -/
theorem Nested.active_eq {scopes : List Scope} {current : Handle} {active : List Handle}
    (h : Nested scopes current active) {st : Standing} (hst : st.active = active) :
    active = scopes.map Scope.frame ++ (scopes.foldl Standing.leave st).active := by
  induction h generalizing st with
  | base => exact hst.symm
  | @scope frame caller calls scopes older hrest ih =>
    refine congrArg (List.cons frame) (ih ?_)
    show st.active.erase frame = older
    rw [hst, List.erase_cons_head]

namespace Configuration

/-- Where an interpreter will stand after it has left the scopes given. -/
def restores (c : Configuration) (scopes : List Scope) : Standing :=
  scopes.foldl Standing.leave c.session.standing

variable {c d : Configuration} {scopes rest : List Scope} {k : Stack}

/-- A change leaves what will be restored as it is: a scope that is entered is added to those that
will be left, and leaving the innermost scope is the first thing they did. -/
theorem Change.restores (h : c.Change d) (hscopes : Stack.scopes c.stack = scopes ++ rest)
    {scopes' : List Scope} (hscopes' : Stack.scopes d.stack = scopes' ++ rest) :
    d.restores scopes' = c.restores scopes := by
  cases h with
  | none arena depth same holds =>
    obtain rfl : scopes' = scopes :=
      List.append_cancel_right (hscopes'.symm.trans (same.trans hscopes))
    simp only [Configuration.restores, Session.standing, arena, depth]
  | put x name v arena value depth same holds =>
    obtain rfl : scopes' = scopes :=
      List.append_cancel_right (hscopes'.symm.trans (same.trans hscopes))
    simp only [Configuration.restores, Session.standing, arena, depth]
    rfl
  | make decl arena depth same holds =>
    obtain rfl : scopes' = scopes :=
      List.append_cancel_right (hscopes'.symm.trans (same.trans hscopes))
    simp only [Configuration.restores, Session.standing, arena, depth, Arena.active_define,
      Arena.current_define, Arena.active_closure, Arena.current_closure]
  | enter parent params args calls within arena values depth more holds =>
    rw [hscopes] at more
    obtain rfl : scopes' = _ :: scopes :=
      List.append_cancel_right (hscopes'.symm.trans more)
    obtain ⟨hactive, hcurrent, -⟩ := Arena.bindParams_eq ((c.session.arena.push parent).1.enter
      (c.session.arena.push parent).2) params args
    -- leaving the new scope would lead back at once
    have hleave : d.session.standing.leave ⟨(c.session.arena.push parent).2,
        c.session.arena.current, calls⟩ = c.session.standing := by
      show Standing.mk _ _ _ = _
      simp only [Session.standing, arena, hactive, depth]
      refine congr (congrArg _ ?_) (Nat.add_sub_cancel ..)
      exact (congrArg (List.erase · _) (Arena.active_push ..)).trans (List.erase_cons_head ..)
    rw [Configuration.restores, List.foldl_cons, hleave]
    rfl
  | leave frame caller calls outside arena told depth fewer holds =>
    rw [hscopes'] at fewer
    obtain rfl : scopes = _ :: scopes' :=
      List.append_cancel_right (hscopes.symm.trans fewer)
    have hleave : d.session.standing = c.session.standing.leave ⟨frame, caller, calls⟩ := by
      show _ = Standing.mk _ _ _
      simp only [Session.standing, arena, depth]
      refine congr (congr (congrArg Standing.mk ?_) ?_) rfl
      · exact Arena.current_leaveFrame ..
      · exact Arena.active_release (c.session.arena.enter caller) frame outside
    rw [Configuration.restores, hleave]
    rfl

/-- **No step changes what will be restored.** -/
theorem restores_step (c : Configuration) :
    c.step.restores (Stack.scopes c.step.stack) = c.restores (Stack.scopes c.stack) :=
  (effect_step c).change.restores (List.append_nil _).symm (List.append_nil _).symm

/-- No number of steps changes what will be restored. -/
theorem restores_after (c : Configuration) (n : Nat) :
    (c.after n).restores (Stack.scopes (c.after n).stack) = c.restores (Stack.scopes c.stack) :=
  after_induction
    (P := fun d => d.restores (Stack.scopes d.stack) = c.restores (Stack.scopes c.stack))
    (fun d hd => (restores_step d).trans hd) rfl n

/-- The active frames are those of the scopes on the stack, and those that are active after them. -/
theorem Sound.active_eq {since : Nat} {kept : Closure → Prop} (h : c.Sound since kept) :
    c.session.arena.active =
      (Stack.scopes c.stack).map Scope.frame ++ (c.restores (Stack.scopes c.stack)).active :=
  h.scopes.active_eq rfl

/-- As long as something remains to be done before `k`, a step leaves `k` where it is. -/
theorem stack_step {top : Stack} (hstack : c.stack = top ++ k) (h : ¬ c.IsOver k) :
    ∃ top', c.step.stack = top' ++ k := by
  obtain ⟨taken, above, y, put, t, -, -, hstep, -⟩ := exists_course hstack h
  exact ⟨put ++ above, by rw [hstep, List.append_assoc]⟩

theorem scopes_append (k₁ k₂ : Stack) :
    Stack.scopes (k₁ ++ k₂) = Stack.scopes k₁ ++ Stack.scopes k₂ :=
  List.filterMap_append ..

/-- **What is done above a stack restores the standing**: when all that was to be done before `k`
is over, the interpreter stands where it stood, in whatever state it began. -/
theorem standing_after (n : Nat) {top : Stack} (hstack : c.stack = top ++ k)
    (hbusy : ∀ m < n, ¬ (c.after m).IsOver k) (hover : (c.after n).stack = k) :
    (c.after n).session.standing = c.restores (Stack.scopes top) := by
  induction n generalizing c top with
  | zero =>
    have hempty : top ++ k = [] ++ k := hstack.symm.trans hover
    obtain rfl := List.append_cancel_right hempty
    rfl
  | succ n ih =>
    -- the step leaves `k` alone, and what is above it restores the same as before
    obtain ⟨above, habove⟩ := stack_step hstack (hbusy 0 (Nat.succ_pos n))
    rw [after_succ, ih habove (fun m hm => hbusy (m + 1) (Nat.succ_lt_succ hm)) hover]
    exact (effect_step c).change.restores (by rw [hstack, scopes_append])
      (by rw [habove, scopes_append])

/-- A run that ends leaves the interpreter where the scopes on the stack lead. -/
theorem standing_run {n : Nat} {e : Except Diagnostic Outcome} {t : Session}
    (hrun : c.run n = some (e, t)) : t.standing = c.restores (Stack.scopes c.stack) := by
  have hsame := restores_after c n
  obtain ⟨rfl, hstack⟩ := after_of_run hrun
  rw [hstack] at hsame
  exact hsame

end Configuration

end Script
