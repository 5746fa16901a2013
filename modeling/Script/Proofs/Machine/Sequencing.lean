import Script.Proofs.Machine.Balance
import Script.Proofs.Machine.Lockstep

/-!
# One list of statements behind another

A step looks at the top of the stack, and of what is below only at the functions held there. A list
of statements is the last thing a chunk has on its stack, so with more statements behind the list
the machine does the same, until it comes to them.

- `step_framed`: a step is the same on every stack that holds the same functions, as long as
  something remains to be done above the stack.
- `Configuration.Rebased`, `Rebased.after`: the same run above another stack.
- `Configuration.Leads`: two machines, the second with more to do once the first has ended.
- `run_append`: behind a list of statements that ends by itself, the next is run.
-/

namespace Script.Configuration

variable {s : Session} {c d : Configuration} {k top : Stack}

/-! ## Steps and the stack below -/

/-- **A step is the same on every stack**, as long as something remains to be done above the stack,
and the stack holds the same functions. -/
theorem step_framed (k' : Stack) (hstack : c.stack = top ++ k)
    (hfunctions : Stack.functions k' = Stack.functions k) (hbusy : ¬ c.IsOver k) :
    ∃ top', c.step.stack = top' ++ k ∧
      step ⟨c.control, top ++ k', c.session⟩ = ⟨c.step.control, top' ++ k', c.step.session⟩ := by
  obtain ⟨taken, rest, y, put, t, -, -, hstep, hall⟩ := exists_course hstack hbusy
  rw [hall k' hfunctions, hstep]
  exact ⟨put ++ rest, (List.append_assoc ..).symm, by rw [List.append_assoc]⟩

/-- The machine `d` is at the same point as `c`, and has `k'` to do where `c` has `k`. -/
structure Rebased (k k' : Stack) (c d : Configuration) : Prop where
  control : d.control = c.control
  session : d.session = c.session
  stack : ∃ top, c.stack = top ++ k ∧ d.stack = top ++ k'

variable {k' : Stack} {n : Nat}

theorem Rebased.symm (h : c.Rebased k k' d) : d.Rebased k' k c :=
  ⟨h.control.symm, h.session.symm, h.stack.imp fun _ hstack => ⟨hstack.2, hstack.1⟩⟩

theorem Rebased.isOver_iff (h : c.Rebased k k' d) : d.IsOver k' ↔ c.IsOver k := by
  obtain ⟨top, hstack, hstack'⟩ := h.stack
  unfold IsOver
  rw [hstack, hstack', h.control, List.append_left_eq_self, List.append_left_eq_self]

theorem Rebased.step (h : c.Rebased k k' d) (hfunctions : Stack.functions k' = Stack.functions k)
    (hbusy : ¬ c.IsOver k) : c.step.Rebased k k' d.step := by
  obtain ⟨control, stack, s⟩ := d
  obtain ⟨rfl, rfl, top, hstack, rfl⟩ := h
  obtain ⟨top', hstack', hstep⟩ := step_framed k' hstack hfunctions hbusy
  rw [hstep]
  exact ⟨rfl, rfl, top', hstack', rfl⟩

/-- **A run is the same on every stack**, until nothing remains to be done above the stack. -/
theorem Rebased.after (h : c.Rebased k k' d) (hfunctions : Stack.functions k' = Stack.functions k)
    (hbusy : ∀ m < n, ¬ (c.after m).IsOver k) : (c.after n).Rebased k k' (d.after n) := by
  induction n with
  | zero => exact h
  | succ n ih =>
    rw [after_succ_eq_step, after_succ_eq_step]
    have hbefore := ih fun m hm => hbusy m (Nat.lt_succ_of_lt hm)
    exact hbefore.step hfunctions (hbusy n (Nat.lt_succ_self n))

/-! ## More statements to follow -/

variable {ps qs : List Stmt} {o : Outcome}

/-- The machine `d` is at the same point as `c`, and has the statements `qs` to execute behind the
list with which the stack of `c` ends. -/
structure Leads (qs : List Stmt) (c d : Configuration) : Prop where
  control : d.control = c.control
  session : d.session = c.session
  stack : ∃ top rest, c.stack = top ++ [.sequence rest] ∧ d.stack = top ++ [.sequence (rest ++ qs)]

/-- A list of statements is over once none is left, or one has ended with a jump. -/
theorem step_sequence_over (h : o.asSignal = .normal → ps = []) :
    step ⟨.done o, .sequence ps :: k, s⟩ = ⟨.done (.signal o.asSignal), k, s⟩ := by
  show resume (.sequence ps) o k s = _
  unfold resume
  simp only
  split
  · rename_i hnormal
    cases h hnormal
  · rfl

theorem step_sequence_normal (ho : o.asSignal = .normal) {st : Stmt} :
    step ⟨.done o, .sequence (st :: ps) :: k, s⟩ = ⟨.exec st, .sequence ps :: k, s⟩ := by
  show resume (.sequence (st :: ps)) o k s = _
  simp only [resume, ho]

/-- A step keeps the lead, until the first machine ends. If it ends by itself, the second is in
front of the statements that follow. -/
theorem Leads.step (h : Leads qs c d) : Leads qs c.step d.step ∨
    ∃ e, c.step.ended? = some (e, c.session) ∧ ∀ o, e = .ok o → o.asSignal = .normal →
      ∃ o', o'.asSignal = .normal ∧ d = ⟨.done o', [.sequence qs], c.session⟩ := by
  obtain ⟨control, stack, s⟩ := d
  obtain ⟨rfl, rfl, top, rest, hc, rfl⟩ := h
  by_cases hover : c.IsOver [.sequence rest]
  · obtain ⟨control, stack, s⟩ := c
    obtain ⟨hstack, hcontrol⟩ := hover
    obtain rfl : stack = [.sequence rest] := hstack
    obtain rfl : top = [] := by simpa using hc
    rcases hcontrol with ⟨o, hcontrol⟩ | ⟨fault, hcontrol⟩
    · obtain rfl : control = .done o := hcontrol
      by_cases hmore : o.asSignal = .normal → rest = []
      · refine .inr ⟨.ok (.signal o.asSignal), by rw [step_sequence_over hmore]; rfl, ?_⟩
        rintro _ ⟨⟩ hnormal
        obtain rfl := hmore hnormal
        exact ⟨o, hnormal, rfl⟩
      · obtain ⟨ho, hrest⟩ := Classical.not_imp.1 hmore
        obtain ⟨st, rest, rfl⟩ := List.exists_cons_of_ne_nil hrest
        rw [step_sequence_normal ho, List.nil_append, List.cons_append, step_sequence_normal ho]
        exact .inl ⟨rfl, rfl, [], rest, rfl, rfl⟩
    · obtain rfl : control = .failed fault := hcontrol
      exact .inr ⟨.error fault, rfl, fun o ho => nomatch ho⟩
  · obtain ⟨top', hstack, hstep⟩ :=
      step_framed [.sequence (rest ++ qs)] hc rfl hover
    exact .inl ⟨by rw [hstep], by rw [hstep], top', rest, hstack, by rw [hstep]⟩

/-- When the first machine has ended by itself, the second has come to the statements that
follow. -/
theorem Leads.run {t : Session} (h : Leads qs c d) (hrun : c.run n = some (.ok o, t))
    (ho : o.asSignal = .normal) :
    ∃ j o', o'.asSignal = .normal ∧ d.after j = ⟨.done o', [.sequence qs], t⟩ := by
  induction n generalizing c d with
  | zero =>
    obtain ⟨top, rest, hstack, -⟩ := h.stack
    obtain ⟨-, hempty⟩ := after_of_run hrun
    rw [after, hstack] at hempty
    simp at hempty
  | succ n ih =>
    have hnext : c.step.run n = some (.ok o, t) := by
      rw [run_eq_after] at hrun ⊢
      exact hrun
    rcases h.step with hstep | ⟨e, hended, hnormal⟩
    · obtain ⟨j, o', ho', hj⟩ := ih hstep hnext
      exact ⟨j + 1, o', ho', hj⟩
    · rw [run_of_ended hended] at hnext
      obtain ⟨rfl, rfl⟩ := Prod.mk.inj (Option.some.inj hnext)
      obtain ⟨o', ho', rfl⟩ := hnormal o rfl ho
      exact ⟨0, o', ho', rfl⟩

/-- How the statement before a list has ended by itself makes no difference to the list. -/
theorem after_sequence_normal (ho : o.asSignal = .normal) (qs : List Stmt) (t : Session) (m : Nat) :
    (after m ⟨.done o, [.sequence qs], t⟩).session =
        (after m ⟨.done .normal, [.sequence qs], t⟩).session ∧
      run m ⟨.done o, [.sequence qs], t⟩ = run m ⟨.done .normal, [.sequence qs], t⟩ := by
  cases m with
  | zero => exact ⟨rfl, rfl⟩
  | succ m =>
    have hstep : step ⟨.done o, [.sequence qs], t⟩ = step ⟨.done .normal, [.sequence qs], t⟩ := by
      show resume (.sequence qs) o [] t = resume (.sequence qs) .normal [] t
      simp only [resume, ho]
      rfl
    rw [run_eq_after, run_eq_after, after_succ, after_succ, hstep]
    exact ⟨rfl, rfl⟩

/-- **What stands behind a list of statements is run in the state that the list ends in**, if it
ends by itself: from there on the machine does what it does if it begins there. -/
theorem run_append {t : Session} (hrun : run n ⟨.done .normal, [.sequence ps], s⟩ = some (.ok o, t))
    (ho : o.asSignal = .normal) (qs : List Stmt) :
    ∃ j, ∀ m, (after (j + m) ⟨.done .normal, [.sequence (ps ++ qs)], s⟩).session =
        (after m ⟨.done .normal, [.sequence qs], t⟩).session ∧
      run (j + m) ⟨.done .normal, [.sequence (ps ++ qs)], s⟩ =
        run m ⟨.done .normal, [.sequence qs], t⟩ := by
  have hleads : Leads qs ⟨.done .normal, [.sequence ps], s⟩
      ⟨.done .normal, [.sequence (ps ++ qs)], s⟩ := ⟨rfl, rfl, [], ps, rfl, rfl⟩
  obtain ⟨j, o', ho', hj⟩ := hleads.run hrun ho
  refine ⟨j, fun m => ?_⟩
  obtain ⟨hsession, hsame⟩ := after_sequence_normal ho' qs t m
  rw [← hsession, ← hsame, run_eq_after, run_eq_after, after_add, hj]
  exact ⟨rfl, rfl⟩

end Script.Configuration
