import Script.Proofs.Machine.Lockstep
import Script.Proofs.Session.StaticChecks
import Script.Proofs.Sink

/-!
# A sink with a limit

A sink that takes a number of bytes in all does nothing to a run until a line crosses the limit. Its
print statement fails then, the run ends with the failure, and the output is the beginning of what a
sink without a limit would have taken.

- `continues_step`, `open_step`: what a step does to the sink.
- `Configuration.capped`, `step_capped`: the step over a sink with a limit.
- `CutAtPrint`, `sink_limit_only_cuts_short`: runs over sinks with and without a limit.
-/

namespace Script

namespace Configuration

variable {c : Configuration} {k : Stack} {s : Session} {v : Value} {pos : Position}
variable {limit : Nat} {reason : ByteArray → List String → String → String}

/-- The bytes that have been written so far. -/
def written (c : Configuration) : ByteArray := c.session.sink.written

/-! ## Output -/

theorem printAt_open (h : s.sink.Open) :
    printAt v pos k s =
      ⟨.done .normal, k, { s with sink := (s.sink.taking v.text).taking "\n" }⟩ := by
  unfold printAt
  rw [Sink.writeLine_open h]

/-- A step prints at most one line. -/
theorem sink_step_cases (c : Configuration) :
    c.step.session.sink = c.session.sink ∨
      ∃ v pos k, c.attempt? = some (.print v pos, k) ∧
        c.step.session.sink = (c.session.sink.writeLine v.text).1 := by
  by_cases h : ∃ v pos k, c.attempt? = some (.print v pos, k)
  · obtain ⟨v, pos, k, hattempt⟩ := h
    refine .inr ⟨v, pos, k, hattempt, ?_⟩
    rw [show c.step = printAt v pos k c.session from step_of_attempt hattempt, printAt]
    split <;> simp_all
  · simp only [not_exists] at h
    exact .inl (sink_step h)

/-- Nothing that has been written is taken back. -/
theorem continues_step (c : Configuration) : c.step.session.sink.Continues c.session.sink := by
  rcases sink_step_cases c with hsame | ⟨v, pos, k, -, hline⟩
  · rw [hsame]
    exact .refl _
  · rw [hline]
    exact Sink.continues_writeLine ..

theorem continues_after (c : Configuration) {n m : Nat} (h : n ≤ m) :
    (c.after m).session.sink.Continues (c.after n).session.sink := by
  obtain ⟨more, rfl⟩ := Nat.exists_eq_add_of_le h
  induction more with
  | zero => exact .refl _
  | succ more ih =>
    rw [← Nat.add_assoc, after_succ_eq_step]
    exact (continues_step _).trans (ih (Nat.le_add_right ..))

/-- A sink that takes all goes on taking all. -/
theorem open_step (h : c.session.sink.Open) : c.step.session.sink.Open := by
  rcases sink_step_cases c with hsame | ⟨v, pos, k, -, hline⟩
  · rwa [hsame]
  · rw [hline, Sink.writeLine_open h]
    exact (h.taking _).taking _

theorem open_after (h : c.session.sink.Open) (n : Nat) : (c.after n).session.sink.Open :=
  after_induction (P := fun c => c.session.sink.Open) (fun _ => open_step) h n

/-! ## A limit -/

/-- The configuration over a sink that takes `limit` bytes in all. -/
def capped (limit : Nat) (reason : ByteArray → List String → String → String) (c : Configuration) :
    Configuration :=
  c.map fun s => { s with sink := s.sink.under (Sink.cutAt limit reason) }

/-- A step over a sink with a limit is the same step, if all that has been written after it is
within the limit. -/
theorem step_capped (h : c.session.sink.Open) (hroom : c.step.written.size ≤ limit) :
    (c.capped limit reason).step = c.step.capped limit reason := by
  refine step_map (Session.resets_sink fun sink => sink.under _) fun a k hattempt => ?_
  cases a with
  | call callee args pos =>
    exact call_map (Session.resets_sink fun sink => sink.under _) callee args fun f _ _ => .inl rfl
  | print v pos =>
    have hstep : c.step = printAt v pos k c.session := step_of_attempt hattempt
    rw [printAt_open h] at hstep
    have hbefore : c.session.sink.written.size ≤ limit :=
      Nat.le_trans (continues_step c).size_le hroom
    rw [hstep] at hroom
    have hcut : Sink.Cut limit reason _ _ := Sink.writeLine_cut hbefore v.text
    have hline := hcut.eq_of_le hroom
    show printAt v pos k { c.session with sink := c.session.sink.under _ } = _
    rw [make, printAt_open h, printAt, hline]
    rfl

/-- A print statement that crosses the limit fails, and the line is cut at the limit. -/
theorem step_capped_of_lt (hattempt : c.attempt? = some (.print v pos, k))
    (h : c.session.sink.Open) (hbefore : c.written.size ≤ limit)
    (hbeyond : limit < c.step.written.size) :
    ∃ why sink, (c.capped limit reason).step =
        ⟨.failed ⟨.outputFailed why, pos⟩, k, { c.session with sink := sink }⟩ ∧
      sink.written = c.step.written.extract 0 limit := by
  have hstep : c.step = printAt v pos k c.session := step_of_attempt hattempt
  rw [printAt_open h] at hstep
  rw [hstep] at hbeyond
  have hcut : Sink.Cut limit reason _ _ := Sink.writeLine_cut hbefore v.text
  obtain ⟨sink, why, hline, hwritten⟩ := hcut.exists_of_lt hbeyond
  refine ⟨why, sink, ?_, by rw [hstep]; exact hwritten⟩
  have hshort : (c.capped limit reason).step = printAt v pos k
      { c.session with sink := c.session.sink.under (Sink.cutAt limit reason) } :=
    step_of_attempt (c := c.capped limit reason) hattempt
  rw [hshort, printAt, hline]

/-! ## Runs over sinks with and without a limit -/

/-- The run `short` is cut where `full` writes more than `limit` bytes. Step by step it is the run
`full`, up to the moment `n` when a line is about to be printed at `pos` that crosses the limit. In
`short` the print statement fails, and nothing is done from then on but leaving what has been
entered. -/
structure CutAtPrint (limit : Nat) (reason : ByteArray → List String → String → String) (n : Nat)
    (why : String) (pos : Position) (full short : Configuration) : Prop where
  agree : ∀ m ≤ n, short.after m = (full.after m).capped limit reason
  within : (full.after n).written.size ≤ limit
  beyond : limit < (full.after (n + 1)).written.size
  attempt : ∃ v k, (full.after n).attempt? = some (.print v pos, k)
  failed : ∀ m > n, (short.after m).control = .failed ⟨.outputFailed why, pos⟩
  /-- The first `limit` bytes of the output of `full` have been written, and stay all there is. -/
  written : ∀ m > n, ∀ i > n, (short.after m).written = (full.after i).written.extract 0 limit
  /-- The sink is given nothing more. -/
  still : ∀ m > n, (short.after m).session.sink = (short.after (n + 1)).session.sink
  /-- The variables that remain have the values they had. -/
  arena : ∀ m > n, (short.after m).session.arena.Within (full.after n).session.arena
  ends : ∃ steps s, short.run steps = some (.error ⟨.outputFailed why, pos⟩, s) ∧
    s.sink = (short.after (n + 1)).session.sink

variable {full : Configuration} {n : Nat}

theorem size_written_le (c : Configuration) {n m : Nat} (h : n ≤ m) :
    (c.after n).written.size ≤ (c.after m).written.size :=
  (continues_after c h).size_le

/-- As long as the output is within the limit, the limit changes nothing. -/
theorem after_capped (h : full.session.sink.Open) (hroom : (full.after n).written.size ≤ limit) :
    (full.capped limit reason).after n = (full.after n).capped limit reason := by
  refine after_map fun m hm => step_capped (open_after h m) ?_
  rw [← after_succ_eq_step]
  exact Nat.le_trans (size_written_le full hm) hroom

/-- A run that writes more than the limit allows is cut where it does. -/
theorem exists_cutAtPrint (h : full.session.sink.Open) (hstart : full.written.size ≤ limit)
    (hbeyond : ∃ n, limit < (full.after n).written.size) :
    ∃ n why pos, CutAtPrint limit reason n why pos full (full.capped limit reason) := by
  obtain ⟨n, hwithin, hloss⟩ := exists_first_loss (P := fun c => c.written.size ≤ limit) hstart
    (hbeyond.imp fun n => Nat.not_le_of_lt)
  have hagree (m : Nat) (hm : m ≤ n) :
      (full.capped limit reason).after m = (full.after m).capped limit reason :=
    after_capped h (hwithin m hm)
  have hlast := hwithin n (Nat.le_refl n)
  have hcrosses : limit < (full.after n).step.written.size := by
    rw [← after_succ_eq_step]
    exact Nat.lt_of_not_le hloss
  -- a step that writes nothing does not cross the limit
  rcases sink_step_cases (full.after n) with hsame | ⟨v, pos, k, hattempt, -⟩
  · rw [Configuration.written, hsame] at hcrosses
    exact absurd hlast (Nat.not_le_of_lt hcrosses)
  · have hfails : ∃ why sink, ((full.after n).capped limit reason).step = _ ∧ _ :=
      step_capped_of_lt hattempt (open_after h n) hlast hcrosses
    obtain ⟨why, sink, hstep, hwritten⟩ := hfails
    rw [← hagree n (Nat.le_refl n), ← after_succ_eq_step] at hstep
    rw [← after_succ_eq_step] at hwritten hcrosses
    refine ⟨n, why, pos, hagree, hlast, hcrosses, ⟨v, k, hattempt⟩, ?failed, ?written, ?still,
      ?arena, ?ends⟩
    case failed => exact fun m hm => (after_of_failed hstep hm).1
    case written =>
      intro m hm i hi
      have hmore := continues_after full (show n + 1 ≤ i from hi)
      have hsame := hmore.extract_eq (Nat.le_of_lt hcrosses)
      rw [Configuration.written, (after_of_failed hstep hm).2.1, hwritten]
      exact hsame.symm
    case still =>
      intro m hm
      rw [(after_of_failed hstep hm).2.1, hstep]
    case arena => exact fun m hm => (after_of_failed hstep hm).2.2
    case ends =>
      obtain ⟨steps, s, hrun, hsink⟩ := run_of_failed hstep
      exact ⟨steps, s, hrun, by rw [hsink, hstep]⟩

/-- **A limit on the output only cuts a run short.** Whatever the program, the rule for defining a
name twice and the limit on the nesting of calls: if the run over a sink that takes all writes no
more than `limit` bytes, the run over a sink that takes `limit` bytes is the same and ends in the
same way. If it writes more, whether or not it ends, the run over the limited sink is cut at the
print statement that crosses the limit, and its output is the first `limit` bytes of the other. -/
theorem sink_limit_only_cuts_short (policy : Policy) (depth : Nat) (program : Program) (limit : Nat)
    (reason : ByteArray → List String → String → String) :
    ((∀ n, ((launch policy (.new none) depth program).after n).written.size ≤ limit) →
      (∀ n, (launch policy (.capped limit reason) depth program).after n =
        ((launch policy (.new none) depth program).after n).capped limit reason) ∧
      ∀ steps, (Session.alone policy (.capped limit reason) depth).interpret steps program =
        ((Session.alone policy (.new none) depth).interpret steps program).map fun (r, s) =>
          (r, { s with sink := s.sink.under (Sink.cutAt limit reason) })) ∧
    ((∃ n, limit < ((launch policy (.new none) depth program).after n).written.size) →
      ∃ n why pos,
        CutAtPrint limit reason n why pos (launch policy (.new none) depth program)
          (launch policy (.capped limit reason) depth program) ∧
        ∃ steps s, (Session.alone policy (.capped limit reason) depth).interpret steps program =
            some (.error ⟨.outputFailed why, pos⟩, s) ∧
          s.sink.written = ((launch policy (.new none) depth program).after (n + 1)).written.extract
            0 limit) := by
  have hcapped : launch policy (.capped limit reason) depth program =
      (launch policy (.new none) depth program).capped limit reason := rfl
  have hopen : (launch policy (.new none) depth program).session.sink.Open := Sink.open_new
  refine ⟨fun hwithin => ⟨fun n => ?_, fun steps => ?_⟩, fun hbeyond => ?_⟩
  · exact after_capped hopen (hwithin n)
  · have hafter : ((launch policy (.new none) depth program).capped limit reason).after steps = _ :=
      after_capped hopen (hwithin steps)
    rw [interpret_alone, interpret_alone, hcapped, Configuration.capped, run_map hafter,
      Option.map_map, Option.map_map]
    rfl
  · obtain ⟨n, why, pos, hcut⟩ := exists_cutAtPrint hopen (Nat.zero_le limit) hbeyond
    refine ⟨n, why, pos, hcut, ?_⟩
    obtain ⟨steps, s, hrun, hsink⟩ := hcut.ends
    refine ⟨steps, { s with pending := .normal }, ?_, ?_⟩
    · rw [interpret_alone, hcapped, hrun]
      rfl
    · show s.sink.written = _
      rw [hsink]
      exact hcut.written (n + 1) (Nat.lt_succ_self n) (n + 1) (Nat.lt_succ_self n)

/-- A loop that prints its text for ever. -/
def litany : Program :=
  [.loop (.literal (.bool true) .start) (.print (.literal (.string "so") .start) .start) none
    .start]

/-- Over a sink that takes four bytes, the second line is cut in its text. -/
theorem sink_limit_only_cuts_short_litany :
    ∃ n why pos,
      CutAtPrint 4 (fun _ _ _ => "closed") n why pos
        (launch .strict (.new none) 10 litany) (launch .strict (.new (some 4)) 10 litany) ∧
      ∃ steps s, (Session.alone .strict (.new (some 4)) 10).interpret steps litany =
          some (.error ⟨.outputFailed why, pos⟩, s) ∧
        s.sink.written = ((launch .strict (.new none) 10 litany).after (n + 1)).written.extract
          0 4 := by
  obtain ⟨-, hcut⟩ := sink_limit_only_cuts_short .strict 10 litany 4 fun _ _ _ => "closed"
  have hbeyond : 4 < ((launch .strict (.new none) 10 litany).after 17).written.size := by
    decide +kernel
  rw [Sink.new_some_eq_capped]
  exact hcut ⟨17, hbeyond⟩

end Configuration

end Script
