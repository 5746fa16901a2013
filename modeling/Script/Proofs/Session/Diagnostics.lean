import Script.Proofs.Grammar.Moving
import Script.Proofs.Machine.Recasting
import Script.Proofs.Session.StaticChecks
import Script.Proofs.Token.Faults

/-!
# Where diagnostics point

Every diagnostic about a text names a place in it. What the grammar or a run is at fault for is at a
token, however late it shows and wherever the tree was changed on the way.

- `Session.runWithin`: running a text under given settings.
- `mem_of_run_launch`: a run fails at a position of its program.
- `diagnostics_point_into_source`: the positions of all diagnostics, and of all nodes.
-/

namespace Script

/-- Compiles a text and runs it over a sink, under a rule for defining a name twice and a limit on
the nesting of calls. -/
def runWithin (steps : Nat) (policy : Policy) (sink : Sink) (depth : Nat) (source : String) :
    Option (Except Diagnostic Unit × Sink) :=
  match compile source with
  | .error d => some (.error d, sink)
  | .ok program =>
    ((Session.alone policy sink depth).interpret steps program).map fun (r, s) => (r, s.sink)

/-- A new session has no functions, and so no positions. -/
theorem Session.positions_alone (policy : Policy) (sink : Sink) (depth : Nat) :
    (Session.alone policy sink depth).positions = [] := rfl

namespace Configuration

variable {policy : Policy} {sink : Sink} {depth : Nat} {program : Program}

/-- A run in a new session can fail only at a position in its program. -/
theorem mem_of_run_launch {steps : Nat} {d : Diagnostic} {s : Session}
    (h : (launch policy sink depth program).run steps = some (.error d, s)) :
    d.pos ∈ program.positions := by
  have hmem := mem_of_run (s := Session.alone policy sink depth) h
  rwa [Session.positions_alone, List.append_nil] at hmem

end Configuration

/-! ## Texts -/

variable {source : String} {d : Diagnostic}

/-- A tree has no other positions than those of the tokens of its text. -/
theorem mem_of_compile_eq_ok {program : Program} (h : compile source = .ok program) :
    ∃ tokens, scan source = .ok tokens ∧ ∀ p ∈ program.positions, p ∈ tokens.map (·.pos) := by
  obtain ⟨tokens, htokens, hparse⟩ := exists_tokens_of_compile h
  exact ⟨tokens, htokens, mem_of_parse_eq_ok (exists_eof_of_scan htokens) hparse⟩

/-- A text that does not compile has a fault in its characters, or at one of its tokens. -/
theorem mem_of_compile_eq_error (h : compile source = .error d) :
    scan source = .error d ∨ ∃ tokens, scan source = .ok tokens ∧ d.pos ∈ tokens.map (·.pos) := by
  unfold compile at h
  cases htokens : scan source with
  | error d' =>
    rw [htokens] at h
    exact .inl (congrArg Except.error (Except.error.inj h))
  | ok tokens =>
    rw [htokens] at h
    exact .inr ⟨tokens, rfl, mem_of_parse_eq_error (exists_eof_of_scan htokens) h⟩

/-- So has a text that fails when it is run. -/
theorem mem_of_runWithin {steps : Nat} {policy : Policy} {sink t : Sink} {depth : Nat}
    (h : runWithin steps policy sink depth source = some (.error d, t)) :
    scan source = .error d ∨ ∃ tokens, scan source = .ok tokens ∧ d.pos ∈ tokens.map (·.pos) := by
  unfold runWithin at h
  cases hcompile : compile source with
  | error d' =>
    rw [hcompile] at h
    obtain ⟨hd, -⟩ := Prod.mk.inj (Option.some.inj h)
    obtain rfl := Except.error.inj hd
    exact mem_of_compile_eq_error hcompile
  | ok program =>
    obtain ⟨tokens, htokens, hmem⟩ := mem_of_compile_eq_ok hcompile
    rw [hcompile] at h
    obtain ⟨⟨r, s⟩, hinterpret, hend⟩ := Option.map_eq_some_iff.1 h
    rw [Configuration.interpret_alone] at hinterpret
    obtain ⟨⟨e, s'⟩, hrun, hr⟩ := Option.map_eq_some_iff.1 hinterpret
    obtain ⟨rfl, -⟩ := Prod.mk.inj hr
    obtain ⟨he, -⟩ := Prod.mk.inj hend
    cases e with
    | ok o => cases he
    | error d' =>
      obtain rfl := Except.error.inj he
      exact .inr ⟨tokens, htokens, hmem _ (Configuration.mem_of_run_launch hrun)⟩

/-- **Every diagnostic points into the source.** Whatever the text, the rule for defining a name
twice, the limit on the nesting of calls and the sink: if running the text fails for the grammar's
or the run's sake, it does so at a token of the text, the end of input included; if it fails over a
character, it does so at a character of the text or at its end. The nodes of the tree all stand at
tokens. -/
theorem diagnostics_point_into_source (source : String) :
    (∀ program, compile source = .ok program →
      ∃ tokens, scan source = .ok tokens ∧ ∀ p ∈ program.positions, p ∈ tokens.map (·.pos)) ∧
    ∀ steps policy sink depth d t,
      runWithin steps policy sink depth source = some (.error d, t) →
      (d.fault.category = .lexical →
        ∃ before after, source.toList = before ++ after ∧ d.pos = .behind before) ∧
      (d.fault.category ≠ .lexical →
        ∃ tokens, scan source = .ok tokens ∧ d.pos ∈ tokens.map (·.pos)) := by
  refine ⟨fun program => mem_of_compile_eq_ok, fun steps policy sink depth d t h => ?_⟩
  rcases mem_of_runWithin h with hscan | ⟨tokens, htokens, hmem⟩
  · rcases scan_error hscan with ⟨u, c, v, hsource, rfl⟩ | rfl
    · exact ⟨fun _ => ⟨u, c :: v, hsource, rfl⟩, fun hother => absurd rfl hother⟩
    · exact ⟨fun _ => ⟨source.toList, [], (List.append_nil _).symm, rfl⟩,
        fun hother => absurd rfl hother⟩
  · refine ⟨fun _ => ?_, fun _ => ⟨tokens, htokens, hmem⟩⟩
    -- a token stands at a character or at the end itself
    obtain ⟨t, ht, hpos⟩ := List.mem_map.1 hmem
    obtain ⟨u, v, hsource, hbehind⟩ := (scan_eq_ok_iff_scans.1 htokens).pos_mem t ht
    exact ⟨u, v, hsource, hpos.symm.trans hbehind⟩

/-- A function fails at the operator in its body, two lines above its call. -/
theorem diagnostics_point_into_source_laterCall :
    let source := "fun f() \x7b return -g; \x7d\nvar g = nil;\nf();"
    ∃ tokens sink, runWithin 40 .strict (.new none) 10 source =
        some (.error ⟨.notNegatable .nil, ⟨1, 18⟩⟩, sink) ∧
      scan source = .ok tokens ∧ ⟨1, 18⟩ ∈ tokens.map (·.pos) := by
  intro source
  have hfails : (runWithin 40 .strict (.new none) 10 source).map Prod.fst =
      some (.error ⟨.notNegatable .nil, ⟨1, 18⟩⟩) := by decide +kernel
  obtain ⟨⟨r, sink⟩, hruns, rfl⟩ := Option.map_eq_some_iff.1 hfails
  obtain ⟨tokens, htokens, hmem⟩ :=
    ((diagnostics_point_into_source source).2 _ _ _ _ _ _ hruns).2 (by decide)
  exact ⟨tokens, sink, hruns, htokens, hmem⟩

end Script
