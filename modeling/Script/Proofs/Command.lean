import Script.Command
import Script.Proofs.Session.Wording

/-!
# What the command reports

Whatever the arguments and the files, the report of the command is one of four: how it is used, that
the script cannot be read, what the script has written, or that with one more line behind it.

- `Options.ofArgs?_eq_some_iff`: the arguments that are well-formed, in any order.
- `Sink.Spelled`: the bytes written are those of a text, and `Spelled.toUTF8_text` gives it back.
- `Misused`, `Reports`: arguments that are not well-formed, and the report that a run leads to.
- `Command.run_reports`: the report, for all arguments and files.
-/

namespace Script

/-! ## Arguments -/

/-- The argument begins with two hyphens. -/
def IsOption (arg : String) : Prop := ['-', '-'] <+: arg.toList

instance (arg : String) : Decidable (IsOption arg) :=
  inferInstanceAs (Decidable (['-', '-'] <+: arg.toList))

/-- Some option does not exist, or the arguments do not name exactly one script. -/
def Misused (args : List String) : Prop :=
  (∃ arg ∈ args, IsOption arg ∧ arg ≠ "--permissive") ∨ args.countP (¬ IsOption ·) ≠ 1

instance (args : List String) : Decidable (Misused args) :=
  inferInstanceAs (Decidable (_ ∨ _))

namespace Options

theorem isFlag_iff {arg : String} : isFlag arg = true ↔ IsOption arg := by
  rw [isFlag, decide_eq_true_eq, IsOption, List.prefix_iff_eq_take, eq_comm]
  rfl

theorem not_isFlag_eq : (fun arg => !isFlag arg) = fun arg => decide (¬ IsOption arg) := by
  funext arg
  rw [Bool.eq_iff_iff, Bool.not_eq_true', decide_eq_true_eq, ← isFlag_iff, Bool.not_eq_true]

/-- Arguments are well-formed if the only option among them is the one there is, and one script is
named. -/
theorem ofArgs?_eq_some_iff {args : List String} {o : Options} :
    ofArgs? args = some o ↔
      (∀ arg ∈ args, IsOption arg → arg = permissiveFlag) ∧
        args.filter (¬ IsOption ·) = [o.script] ∧
        o.policy = if permissiveFlag ∈ args then .permissive else .strict := by
  have hany : (args.any fun arg => isFlag arg && arg ≠ permissiveFlag) = true ↔
      ¬ ∀ arg ∈ args, IsOption arg → arg = permissiveFlag := by
    simp [isFlag_iff]
  obtain ⟨script, policy⟩ := o
  unfold ofArgs?
  rw [not_isFlag_eq]
  by_cases hflags : ∀ arg ∈ args, IsOption arg → arg = permissiveFlag
  · rw [if_neg (fun h => hany.1 h hflags)]
    constructor
    · intro h
      split at h
      · rename_i named hnamed
        obtain ⟨rfl, rfl⟩ := Options.mk.inj (Option.some.inj h)
        exact ⟨hflags, hnamed, by simp⟩
      · cases h
    · rintro ⟨-, hnamed, hpolicy⟩
      simp only at hnamed hpolicy
      rw [hnamed, hpolicy]
      simp
  · rw [if_pos (hany.2 hflags)]
    constructor
    · intro h
      cases h
    · intro h
      exact absurd h.1 hflags

/-- The order of arguments does not matter. -/
theorem ofArgs?_perm {args args' : List String} (h : args.Perm args') :
    ofArgs? args = ofArgs? args' := by
  refine Option.ext fun o => ?_
  have hnamed : args.filter (¬ IsOption ·) = [o.script] ↔
      args'.filter (¬ IsOption ·) = [o.script] := by
    rw [← List.perm_singleton, ← List.perm_singleton]
    exact ⟨(h.filter _).symm.trans, (h.filter _).trans⟩
  rw [ofArgs?_eq_some_iff, ofArgs?_eq_some_iff]
  simp only [h.mem_iff, hnamed]

theorem ofArgs?_eq_none_iff {args : List String} : ofArgs? args = none ↔ Misused args := by
  rw [Option.eq_none_iff_forall_not_mem]
  constructor
  · intro h
    by_contra hused
    obtain ⟨hflags, hone⟩ := not_or.1 hused
    rw [not_not, List.countP_eq_length_filter, List.length_eq_one_iff] at hone
    obtain ⟨script, hscript⟩ := hone
    refine h ⟨script, if permissiveFlag ∈ args then .permissive else .strict⟩ ?_
    refine ofArgs?_eq_some_iff.2 ⟨fun arg harg hoption => ?_, hscript, rfl⟩
    by_contra hother
    exact hflags ⟨arg, harg, hoption, hother⟩
  · rintro hused o ho
    obtain ⟨hflags, hnamed, -⟩ := ofArgs?_eq_some_iff.1 ho
    rcases hused with ⟨arg, harg, hoption, hother⟩ | hcount
    · exact hother (hflags arg harg hoption)
    · rw [List.countP_eq_length_filter, hnamed] at hcount
      exact hcount rfl

end Options

/-! ## The bytes of a text -/

/-- Bytes are read as a text if they are its bytes. -/
theorem fromUTF8?_eq_some_iff {bytes : ByteArray} {text : String} :
    String.fromUTF8? bytes = some text ↔ text.toUTF8 = bytes := by
  unfold String.fromUTF8?
  constructor
  · intro h
    split at h
    · obtain rfl := Option.some.inj h
      rfl
    · cases h
  · rintro rfl
    exact dif_pos text.isValidUTF8

namespace Sink

/-- The bytes written are those of a text. -/
def Spelled (s : Sink) : Prop := ∃ text : String, s.written = text.toUTF8

theorem spelled_new (limit : Option Nat) : (new limit).Spelled := ⟨"", rfl⟩

theorem Spelled.taking {s : Sink} (h : s.Spelled) (text : String) : (s.taking text).Spelled := by
  obtain ⟨before, hbefore⟩ := h
  refine ⟨before ++ text, ?_⟩
  show s.written ++ text.toUTF8 = (before ++ text).toByteArray
  rw [hbefore, String.toByteArray_append]
  rfl

/-- The bytes of a text are read as this text. -/
theorem decode_toUTF8 (text : String) : decode text.toUTF8 = text := by
  have hwhole : text.toUTF8.extract 0 (text.toUTF8.size - 0) = text.toUTF8 :=
    ByteArray.extract_zero_size
  have hfirst : List.range 4 = 0 :: [1, 2, 3] := rfl
  unfold decode
  rw [hfirst, List.findSome?_cons, hwhole, fromUTF8?_eq_some_iff.2 rfl]
  rfl

/-- Where the bytes written are those of a text, it is this text that was written. -/
theorem Spelled.toUTF8_text {s : Sink} (h : s.Spelled) : s.text.toUTF8 = s.written := by
  obtain ⟨text, htext⟩ := h
  unfold Sink.text textFrom
  rw [ByteArray.extract_zero_size, htext, decode_toUTF8]

end Sink

namespace Configuration

variable {c : Configuration}

/-- A sink that takes all is given whole texts. -/
theorem spelled_step (hopen : c.session.sink.Open) (h : c.session.sink.Spelled) :
    c.step.session.sink.Spelled := by
  rcases sink_step_cases c with hsame | ⟨v, pos, k, -, hline⟩
  · rwa [hsame]
  · rw [hline, Sink.writeLine_open hopen]
    exact (h.taking _).taking _

theorem spelled_after (hopen : c.session.sink.Open) (h : c.session.sink.Spelled) (n : Nat) :
    (c.after n).session.sink.Spelled := by
  induction n with
  | zero => exact h
  | succ n ih =>
    rw [after_succ_eq_step]
    exact spelled_step (open_after hopen n) ih

end Configuration

/-- What running a text writes to a sink that takes all is a text. -/
theorem spelled_of_runSource {steps : Nat} {policy : Policy} {sink t : Sink} {source : String}
    {r : Except Diagnostic Unit} (hopen : sink.Open) (hsink : sink.Spelled)
    (h : runSource steps policy sink source = some (r, t)) : t.Spelled := by
  cases hcompile : compile source with
  | error d =>
    unfold runSource at h
    rw [hcompile] at h
    obtain ⟨-, rfl⟩ := Prod.mk.inj (Option.some.inj h)
    exact hsink
  | ok program =>
    rw [Configuration.runSource_eq_launch hcompile] at h
    obtain ⟨⟨e, s⟩, hrun, hend⟩ := Option.map_eq_some_iff.1 h
    obtain ⟨-, rfl⟩ := Prod.mk.inj hend
    rw [← (Configuration.after_of_run hrun).1]
    exact Configuration.spelled_after hopen hsink steps

/-! ## Reports -/

/-- The report on a run: what it wrote and nothing else, or that with a line about the fault. -/
def Reports : Except Diagnostic Unit × Sink → Report → Prop
  | (.ok _, sink), report => report.output.toUTF8 = sink.written ∧ report.status = 0
  | (.error d, sink), report =>
    report.output.toUTF8 = sink.written ++ s!"[line {d.pos.line}] {d.message}\n".toUTF8 ∧
      report.status = 1

theorem reports_ofRun {r : Except Diagnostic Unit} {sink : Sink} (h : sink.Spelled) :
    Reports (r, sink) (.ofRun (r, sink)) := by
  have htext := h.toUTF8_text
  rw [String.toUTF8_eq_toByteArray] at htext
  cases r with
  | ok u =>
    unfold Reports Report.ofRun
    exact ⟨htext, rfl⟩
  | error d =>
    have hline : s!"[line {d.pos.line}] {d.message}\n" = d.display ++ "\n" := rfl
    unfold Reports Report.ofRun
    dsimp only
    rw [hline]
    refine ⟨?_, rfl⟩
    simp only [String.toUTF8_eq_toByteArray, String.toByteArray_append, ByteArray.append_assoc,
      htext]

namespace Options

variable {o : Options} {contents : Option ByteArray}

/-- Contents that are the bytes of no text cannot be run. -/
theorem execute_of_unreadable (h : ∀ source : String, contents ≠ some source.toUTF8) (steps : Nat) :
    o.execute steps contents = some (.unreadable o.script) := by
  have hnone : contents.bind String.fromUTF8? = none := by
    refine Option.eq_none_iff_forall_ne_some.2 fun source hsource => ?_
    obtain ⟨bytes, hbytes, hread⟩ := Option.bind_eq_some_iff.1 hsource
    rw [← fromUTF8?_eq_some_iff.1 hread] at hbytes
    exact h source hbytes
  unfold execute
  rw [hnone]

/-- The bytes of a text are run as this text. -/
theorem execute_toUTF8 (source : String) (steps : Nat) :
    Option.Rel Reports (runSource steps o.policy (.new none) source)
      (o.execute steps (some source.toUTF8)) := by
  have hexecute : o.execute steps (some source.toUTF8) =
      (runSource steps o.policy (.new none) source).map Report.ofRun := by
    unfold execute
    rw [Option.bind_some, fromUTF8?_eq_some_iff.2 rfl]
  rw [hexecute]
  cases hrun : runSource steps o.policy (.new none) source with
  | none => exact .none
  | some result =>
    exact .some (reports_ofRun (spelled_of_runSource Sink.open_new (Sink.spelled_new none) hrun))

end Options

namespace Command

/-- **What the command reports, for all arguments and files.** If the arguments are not well-formed,
how it is used, with status 64. Else one script is named; if its file cannot be read, or is not the
bytes of a text, a line that says so, with status 65; and if it is, exactly what running the text
writes, with status 0, or with one line about the fault behind it and status 1. The order of the
arguments does not matter, and no text is at fault for something that is said on several lines. -/
theorem run_reports :
    (∀ steps args read, Misused args →
      run steps args read = some ⟨"Usage: glox [--permissive] <script>\n", 64⟩) ∧
    (∀ steps args read, ¬ Misused args → ∃ script, args.filter (¬ IsOption ·) = [script] ∧
      ((∀ source : String, read script ≠ some source.toUTF8) →
        run steps args read = some ⟨s!"Failed to read file '{script}'.\n", 65⟩) ∧
      ∀ source : String, read script = some source.toUTF8 →
        Option.Rel Reports
          (runSource steps (if "--permissive" ∈ args then .permissive else .strict) (.new none)
            source)
          (run steps args read)) ∧
    (∀ steps args args' read, args.Perm args' → run steps args read = run steps args' read) ∧
    ∀ steps policy source d sink,
      runSource steps policy (.new none) source = some (.error d, sink) →
      '\n' ∉ d.display.toList := by
  refine ⟨?misused, ?wellFormed, ?order, ?oneLine⟩
  case misused =>
    intro steps args read h
    unfold run
    rw [Options.ofArgs?_eq_none_iff.2 h]
    rfl
  case wellFormed =>
    intro steps args read h
    obtain ⟨o, ho⟩ := Option.ne_none_iff_exists'.1 (mt Options.ofArgs?_eq_none_iff.1 h)
    obtain ⟨-, hnamed, hpolicy⟩ := Options.ofArgs?_eq_some_iff.1 ho
    have hrun : run steps args read = o.execute steps (read o.script) := by
      unfold run
      rw [ho]
    refine ⟨o.script, hnamed, fun hunreadable => ?_, fun source hsource => ?_⟩
    · rw [hrun]
      exact Options.execute_of_unreadable hunreadable steps
    · rw [hrun, hsource]
      have hreports := Options.execute_toUTF8 (o := o) source steps
      rwa [hpolicy] at hreports
  case order =>
    intro steps args args' read h
    unfold run
    rw [Options.ofArgs?_perm h]
  case oneLine =>
    intro steps policy source d sink h
    exact oneLine_of_runSource Sink.open_new h

/-- A script writes a line and fails in the next, behind the option it is run with. -/
theorem run_reports_permissiveFailure :
    let source := "print \"a\";\nvar b;\nvar b = -b;"
    ∃ report, Command.run 40 ["script", "--permissive"] (fun _ => some source.toUTF8) =
        some report ∧
      report.output.toUTF8 =
        "a\n".toUTF8 ++ "[line 3] Operand of '-' must be a number, got nil.\n".toUTF8 ∧
      report.status = 1 := by
  intro source
  have hfails : (runSource 40 .permissive (.new none) source).map
      (fun result => (result.1, result.2.written.data.toList)) =
        some (.error ⟨.notNegatable .nil, ⟨3, 9⟩⟩, "a\n".toUTF8.data.toList) := by decide +kernel
  obtain ⟨⟨r, sink⟩, hruns, hend⟩ := Option.map_eq_some_iff.1 hfails
  obtain ⟨rfl, hwritten⟩ := Prod.mk.inj hend
  have hused : ¬ Misused ["script", "--permissive"] := by decide
  obtain ⟨script, -, -, hreadable⟩ :=
    run_reports.2.1 40 ["script", "--permissive"] (fun _ => some source.toUTF8) hused
  have hreports := hreadable source rfl
  rw [if_pos (by decide), hruns] at hreports
  generalize Command.run 40 ["script", "--permissive"] _ = result at hreports ⊢
  cases hreports with
  | @some _ report hreport =>
    obtain ⟨houtput, hstatus⟩ := hreport
    refine ⟨report, rfl, ?_, hstatus⟩
    have hbytes : sink.written = "a\n".toUTF8 := ByteArray.ext (Array.toList_inj.1 hwritten)
    rw [hbytes] at houtput
    exact houtput

end Command

end Script
