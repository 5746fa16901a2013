import Mathlib.Data.Nat.Find
import Script.Proofs.Machine.Balance
import Script.Proofs.Machine.Lockstep

/-!
# What is done above a stack

An expression or a statement is begun above a stack, and is finished when the machine comes back to
that stack for the first time. What waits for it is then finished by going on from there.

- `Configuration.Finishes`, `Configuration.FinishesIn`: how, and after how many steps, what is above
  a stack is finished.
- `finishes_iff_step`, `finishes_below_iff`: the first step, and the part of the stack that waits.
-/

namespace Script.Configuration

variable {c d d' : Configuration} {k top : Stack} {p : Continuation} {n m : Nat}

/-- What is above `k` is over after `n` steps, and not before. -/
def FinishesIn (k : Stack) (n : Nat) (c : Configuration) : Prop :=
  (c.after n).IsOver k ∧ ∀ m < n, ¬ (c.after m).IsOver k

/-- The machine comes to `d` when nothing is left to be done above `k` for the first time. -/
def Finishes (k : Stack) (c d : Configuration) : Prop :=
  ∃ n, c.after n = d ∧ d.IsOver k ∧ ∀ m < n, ¬ (c.after m).IsOver k

theorem isOver_done (o : Outcome) (k : Stack) (s : Session) : IsOver k ⟨.done o, k, s⟩ :=
  ⟨rfl, .inl ⟨o, rfl⟩⟩

theorem isOver_failed (d : Diagnostic) (k : Stack) (s : Session) : IsOver k ⟨.failed d, k, s⟩ :=
  ⟨rfl, .inr ⟨d, rfl⟩⟩

theorem FinishesIn.unique (h : FinishesIn k n c) (h' : FinishesIn k m c) : n = m := by
  rcases Nat.lt_trichotomy n m with hlt | heq | hlt
  · exact absurd h.1 (h'.2 n hlt)
  · exact heq
  · exact absurd h'.1 (h.2 m hlt)

/-- What is above a stack is finished in one way. -/
theorem Finishes.unique (h : Finishes k c d) (h' : Finishes k c d') : d = d' := by
  obtain ⟨n, rfl, hn⟩ := h
  obtain ⟨m, rfl, hm⟩ := h'
  rw [FinishesIn.unique hn hm]

theorem Finishes.isOver (h : Finishes k c d) : d.IsOver k := h.choose_spec.2.1

theorem not_isOver_exec (st : Stmt) (k : Stack) (s : Session) : ¬ IsOver k ⟨.exec st, k, s⟩ := by
  rintro ⟨-, ⟨o, ho⟩ | ⟨fault, hfault⟩⟩
  · cases ho
  · cases hfault

theorem not_isOver_of_length (h : k.length < c.stack.length) : ¬ c.IsOver k := fun hover =>
  Nat.lt_irrefl _ (hover.1 ▸ h)

/-- Where nothing is above the stack, all is finished. -/
theorem IsOver.finishes_iff (h : c.IsOver k) : Finishes k c d ↔ d = c := by
  have hself : Finishes k c c := ⟨0, rfl, h, fun m hm => absurd hm (Nat.not_lt_zero m)⟩
  exact ⟨fun hd => hd.unique hself, fun hd => hd ▸ hself⟩

/-- What is over at some moment has been over for the first time. -/
theorem exists_first_over (h : ¬ ∀ m < n, ¬ (c.after m).IsOver k) :
    ∃ m < n, (c.after m).IsOver k ∧ ∀ i < m, ¬ (c.after i).IsOver k := by
  classical
  simp only [not_forall, not_not] at h
  obtain ⟨i, hi, hover⟩ := h
  have hex : ∃ m, (c.after m).IsOver k := ⟨i, hover⟩
  exact ⟨Nat.find hex, Nat.lt_of_le_of_lt (Nat.find_min' hex hover) hi, Nat.find_spec hex,
    fun _ => Nat.find_min hex⟩

/-- As long as something is to be done, it does not matter whether the next step has been taken. -/
theorem finishes_iff_step (h : ¬ c.IsOver k) : Finishes k c d ↔ Finishes k c.step d := by
  constructor
  · rintro ⟨n, rfl, hover, hfirst⟩
    cases n with
    | zero => exact absurd hover h
    | succ n => exact ⟨n, rfl, hover, fun m hm => hfirst (m + 1) (Nat.succ_lt_succ hm)⟩
  · rintro ⟨n, rfl, hover, hfirst⟩
    refine ⟨n + 1, rfl, hover, fun m hm => ?_⟩
    cases m with
    | zero => exact h
    | succ m => exact hfirst m (Nat.lt_of_succ_lt_succ hm)

theorem isOver_nil_iff : c.IsOver [] ↔ c.ended?.isSome = true := by
  constructor
  · obtain ⟨control, stack, s⟩ := c
    rintro ⟨rfl, ⟨o, rfl⟩ | ⟨d, rfl⟩⟩ <;> rfl
  · intro h
    obtain ⟨⟨e, s⟩, h⟩ := Option.isSome_iff_exists.1 h
    rcases ended?_eq_some h with ⟨o, -, rfl⟩ | ⟨d, -, rfl⟩
    · exact isOver_done o [] s
    · exact isOver_failed d [] s

/-- A run that ends finishes all there is to do. -/
theorem exists_finishes_of_run {r : Except Diagnostic Outcome × Session} (h : c.run n = some r) :
    ∃ d, Finishes [] c d ∧ d.ended? = some r := by
  induction n generalizing c with
  | zero => exact ⟨c, (isOver_nil_iff.2 (Option.isSome_iff_exists.2 ⟨r, h⟩)).finishes_iff.2 rfl, h⟩
  | succ n ih =>
    cases hended : c.ended? with
    | some r' =>
      have hover : c.IsOver [] := isOver_nil_iff.2 (Option.isSome_iff_exists.2 ⟨r', hended⟩)
      exact ⟨c, hover.finishes_iff.2 rfl, hended.trans ((run_of_ended hended _).symm.trans h)⟩
    | none =>
      have hbusy : ¬ c.IsOver [] := fun hover => by simp [isOver_nil_iff, hended] at hover
      obtain ⟨d, hd, hr⟩ := ih ((run_succ hended n).symm.trans h)
      exact ⟨d, (finishes_iff_step hbusy).2 hd, hr⟩

/-- Until all that is above a stack is finished, the stack stays. -/
theorem stack_after (hstack : c.stack = top ++ k) (hbusy : ∀ m < n, ¬ (c.after m).IsOver k) :
    ∃ top', (c.after n).stack = top' ++ k := by
  induction n with
  | zero => exact ⟨top, hstack⟩
  | succ n ih =>
    obtain ⟨top', htop⟩ := ih fun m hm => hbusy m (Nat.lt_succ_of_lt hm)
    rw [after_succ_eq_step]
    exact stack_step htop (hbusy n (Nat.lt_succ_self n))

theorem not_isOver_of_above (hstack : c.stack = top ++ p :: k) : ¬ c.IsOver k := by
  refine not_isOver_of_length ?_
  rw [hstack, List.length_append, List.length_cons]
  omega

/-- **What waits goes on when what is above it is finished.** -/
theorem finishes_below_iff (hstack : c.stack = top ++ p :: k) :
    Finishes k c d ↔ ∃ m, Finishes (p :: k) c m ∧ Finishes k m.step d := by
  constructor
  · rintro ⟨n, rfl, hover, hfirst⟩
    -- while something is above `p`, the stack is higher than `k`
    have hover' : ¬ ∀ m < n, ¬ (c.after m).IsOver (p :: k) := fun hbusy => by
      obtain ⟨top', htop⟩ := stack_after hstack hbusy
      exact not_isOver_of_above htop hover
    obtain ⟨i, hi, hpart, hfirst'⟩ := exists_first_over hover'
    refine ⟨c.after i, ⟨i, rfl, hpart, hfirst'⟩, n - (i + 1), ?_, ?_, fun m hm => ?_⟩
    · rw [← after_succ_eq_step, ← after_add, Nat.add_sub_cancel' hi]
    · exact hover
    · rw [← after_succ_eq_step, ← after_add]
      exact hfirst _ (by omega)
  · rintro ⟨_, ⟨i, rfl, hpart, hfirst'⟩, n, rfl, hover, hfirst⟩
    refine ⟨i + 1 + n, by rw [after_add, after_succ_eq_step], hover, fun m hm => ?_⟩
    by_cases hearly : m ≤ i
    · obtain ⟨top', htop⟩ := stack_after hstack
        fun j (hj : j < m) => hfirst' j (Nat.lt_of_lt_of_le hj hearly)
      exact not_isOver_of_above htop
    · obtain ⟨j, rfl⟩ : ∃ j, m = i + 1 + j := ⟨m - (i + 1), by omega⟩
      rw [after_add, after_succ_eq_step]
      exact hfirst j (by omega)

end Script.Configuration
