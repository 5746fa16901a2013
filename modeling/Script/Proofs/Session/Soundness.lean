import Script.Proofs.Machine.Soundness

/-!
# No interpreter holds a dangling handle

Whatever a host asks of an interpreter, at every moment of every run all handles in use name frames
that are there.

- `Session.Owns`: the functions held between requests that were made since the last reset.
- `Session.Sound`: the invariant between requests; `sound_reached` says that it always holds.
- `sound_moment`: the invariant of the machine holds at every moment.
- `Configuration.NoDangling`, `no_dangling_handles`: what this means for every kind of handle.
-/

namespace Script

/-! ## Between requests -/

namespace Session

/-- A function made since the variables were last reset, and still held by the pending jump or the
host. -/
def Owns (s : Session) (since : Nat) (fn : Closure) : Prop := fn ∈ s.held ∧ since ≤ fn.identity

/-- No handle dangles in a session between requests. -/
structure Sound (since : Nat) (s : Session) : Prop where
  arena : s.arena.Sound since (s.Owns since)
  current : s.arena.current = s.arena.active.headD Arena.global
  numbered : ∀ fn ∈ s.held, fn.identity < s.arena.nextFunction

variable {s t : Session} {since : Nat} {r : Request}

/-- The host may let go of functions and be given functions of variables, and a jump may be
forgotten. -/
theorem Sound.rehold (h : s.Sound since) (harena : t.arena = s.arena)
    (hheld : ∀ fn ∈ t.held, fn ∈ s.held ∨ s.arena.Binds fn) : t.Sound since := by
  refine ⟨?_, by rw [harena]; exact h.current, fun fn hfn => ?_⟩
  · rw [harena]
    exact h.arena.mono fun fn hfn => (hheld fn hfn.1).imp (fun h => ⟨h, hfn.2⟩) id
  · rw [harena]
    rcases hheld fn hfn with hfn | hfn
    · exact h.numbered fn hfn
    · exact (h.arena.carries fn (.inr hfn)).numbered

theorem mem_held_keep {v : Option Value} {fn : Closure} (h : fn ∈ (s.keep v).held) :
    fn ∈ s.held ∨ ∃ w, v = some w ∧ fn ∈ w.functions := by
  cases v with
  | none => exact .inl h
  | some w =>
    rcases List.mem_append.1 h with h | h
    · exact .inl (List.mem_append_left _ h)
    · rcases List.mem_append.1 h with h | h
      · exact .inr ⟨w, rfl, h⟩
      · exact .inl (List.mem_append_right _ h)

theorem arena_keep (s : Session) (v : Option Value) : (s.keep v).arena = s.arena := by
  cases v <;> rfl

theorem sound_new (sink : Sink) : (new sink).Sound 0 where
  arena := (Arena.sound_new .strict 0 true).mono fun _ hfn => nomatch hfn.1
  current := rfl
  numbered := fun _ hfn => nomatch hfn

/-- A session whose variables are reset owns no function any more. -/
theorem Sound.withPolicy (h : s.Sound since) (policy : Policy) :
    (s.withPolicy policy).Sound s.arena.nextFunction where
  arena := (Arena.sound_new policy s.arena.nextFunction s.arena.reclaims).mono fun fn hfn =>
    absurd (h.numbered fn hfn.1) (Nat.not_lt.2 hfn.2)
  current := rfl
  numbered := h.numbered

/-- A request that needs no run leaves no handle dangling. -/
theorem Sound.atOnce (h : s.Sound since) (r : Request) :
    (r.atOnce s).2.Sound (r.since s since) := by
  cases r with
  | lookup name =>
    refine h.rehold (arena_keep s _) fun fn hfn => ?_
    rcases mem_held_keep hfn with hfn | ⟨w, hw, hfn⟩
    · exact .inl hfn
    · exact .inr (Arena.binds_of_get? hw hfn)
  | setPolicy policy => exact h.withPolicy policy
  | setMaxDepth depth => exact h.rehold rfl fun fn hfn => .inl hfn
  | drop index =>
    refine h.rehold rfl fun fn hfn => .inl ?_
    rcases List.mem_append.1 hfn with hfn | hfn
    · exact List.mem_append_left _ hfn
    · exact List.mem_append_right _ (List.mem_of_mem_eraseIdx hfn)
  | interpret program => exact h
  | exec st => exact h
  | eval e => exact h

/-! ## During requests -/

/-- The machine starts in a session without dangling handles on nothing that holds a function. -/
theorem Sound.starts (h : s.Sound since) {control : Control} {k : Stack}
    (hcontrol : control.functions = []) (hk : Stack.functions k = [])
    (hscopes : Stack.scopes k = []) :
    Configuration.Sound since (s.Owns since) ⟨control, k, s⟩ := by
  refine ⟨h.arena.mono fun fn hfn => ?_, ?_, fun fn hfn => hfn.1⟩
  · rcases hfn with (hfn | hfn) | hfn
    · rw [show Control.functions _ = [] from hcontrol] at hfn
      cases hfn
    · rw [show Stack.functions _ = [] from hk] at hfn
      cases hfn
    · exact .inl hfn
  · show Nested (Stack.scopes k) _ _
    rw [hscopes, h.current]
    exact .base

/-- The machine starts on a request without a dangling handle. -/
theorem Sound.start (h : s.Sound since) {c : Configuration} (hstart : r.start s = some c) :
    c.Sound since (c.session.Owns since) ∧ c.session.Sound since := by
  cases r with
  | interpret program =>
    obtain rfl := Option.some.inj hstart
    have hnormal : Session.Sound since { s with pending := .normal } :=
      h.rehold rfl fun fn hfn => .inl (List.mem_append_right _ hfn)
    exact ⟨hnormal.starts rfl rfl rfl, hnormal⟩
  | exec st =>
    simp only [Request.start] at hstart
    split at hstart
    · obtain rfl := Option.some.inj hstart
      exact ⟨h.starts rfl rfl rfl, h⟩
    · cases hstart
  | eval e =>
    obtain rfl := Option.some.inj hstart
    exact ⟨h.starts rfl rfl rfl, h⟩
  | lookup name => cases hstart
  | setPolicy policy => cases hstart
  | setMaxDepth depth => cases hstart
  | drop index => cases hstart

/-- What a session holds after an answer was held before, or carried by the outcome. -/
theorem mem_held_finish {e : Except Diagnostic Outcome} {fn : Closure}
    (h : fn ∈ (r.finish e t).2.held) :
    fn ∈ t.held ∨ ∃ o, e = .ok o ∧ fn ∈ o.functions := by
  cases r with
  | exec st =>
    cases e with
    | error d => exact .inl h
    | ok o =>
      rcases List.mem_append.1 h with h | h
      · exact .inr ⟨o, rfl, Outcome.mem_functions_of_asSignal h⟩
      · exact .inl (List.mem_append_right _ h)
  | eval ex =>
    rcases mem_held_keep h with h | ⟨w, hw, h⟩
    · exact .inl h
    · cases e with
      | error d => cases hw
      | ok o =>
        obtain rfl := Option.some.inj hw
        exact .inr ⟨o, rfl, Outcome.mem_functions_of_asValue h⟩
  | _ => exact .inl (List.mem_append_right _ h)

theorem arena_finish (r : Request) (e : Except Diagnostic Outcome) (t : Session) :
    (r.finish e t).2.arena = t.arena := by
  cases r with
  | exec st => cases e <;> rfl
  | eval ex => exact arena_keep ..
  | _ => rfl

/-- A request that starts the machine resets no variables. -/
theorem since_of_start {c : Configuration} (h : r.start s = some c) : r.since s since = since := by
  cases r <;> first | rfl | cases h

/-- A request that was answered leaves no handle dangling. -/
theorem Sound.answer (h : s.Sound since) {steps : Nat} {reply : Reply}
    (hanswer : s.answer steps r = some (reply, t)) : t.Sound (r.since s since) := by
  rcases Request.answer_cases hanswer with ⟨c, e, u, hstart, hrun, hfinish⟩ | ⟨-, hatOnce⟩
  · obtain ⟨hc, hs⟩ := h.start hstart
    obtain ⟨harena, hcurrent, hnext⟩ := hc.run hrun
    have hsettings := Configuration.settings_run hrun
    obtain rfl : t = (r.finish e u).2 := congrArg Prod.snd hfinish
    -- what is held now was held when the run began, or is in its outcome
    rw [since_of_start hstart]
    refine ⟨?_, by rw [arena_finish]; exact hcurrent, fun fn hfn => ?_⟩
    · rw [arena_finish]
      refine harena.mono fun fn hfn => .inl ?_
      rcases mem_held_finish hfn.1 with hfn' | hfn'
      · exact .inr ⟨hsettings.held ▸ hfn', hfn.2⟩
      · exact .inl hfn'
    · rw [arena_finish]
      rcases mem_held_finish hfn with hfn' | hfn'
      · rw [hsettings.held] at hfn'
        exact Nat.lt_of_lt_of_le (hs.numbered fn hfn') hnext
      · exact (harena.carries fn (.inl (.inl hfn'))).numbered
  · obtain rfl : t = (r.atOnce s).2 := congrArg Prod.snd hatOnce
    exact h.atOnce r

/-- No handle dangles in a session that a host has brought about. -/
theorem sound_reached (h : Reached since s) : s.Sound since := by
  induction h with
  | new sink => exact sound_new sink
  | answer _ hanswer ih => exact ih.answer hanswer

end Session

/-- No handle dangles at any moment of any run. -/
theorem sound_moment {since : Nat} {c : Configuration} (h : Moment since c) :
    c.Sound since (c.session.Owns since) := by
  obtain ⟨s, r, first, n, hs, hstart, rfl⟩ := h
  obtain ⟨hfirst, -⟩ := (Session.sound_reached hs).start hstart
  have hend := hfirst.after n
  rw [show first.session.Owns since = (first.after n).session.Owns since from ?_] at hend
  · exact hend
  · unfold Session.Owns
    rw [(Configuration.settings_after first n).held]

/-! ## At every moment -/

/-- Every handle in use names a frame that is there. Of the functions that the pending jump and the
host hold, those count that were made since the variables were last reset. -/
structure Configuration.NoDangling (since : Nat) (c : Configuration) : Prop where
  current : c.session.arena.Live c.session.arena.current
  active : ∀ x ∈ c.session.arena.active, c.session.arena.Live x
  parent : ∀ x f p, c.session.arena.frame? x = some f → f.parent = some p →
    c.session.arena.Live p
  caller : ∀ scope ∈ Stack.scopes c.stack,
    c.session.arena.Live scope.frame ∧ c.session.arena.Live scope.caller
  bound : ∀ fn, c.session.arena.Binds fn → since ≤ fn.identity ∧ c.session.arena.Live fn.captured
  unfinished : ∀ fn, c.Holds fn → since ≤ fn.identity ∧ c.session.arena.Live fn.captured
  pending : ∀ fn ∈ c.session.pending.functions, since ≤ fn.identity →
    c.session.arena.Live fn.captured
  host : ∀ fn ∈ c.session.host, since ≤ fn.identity → c.session.arena.Live fn.captured

/-- No definition of a variable or parameter is refused for want of a frame. -/
structure Configuration.Defines (c : Configuration) : Prop where
  definition : ∀ name v other, (c.session.arena.define name v).2 ≠ some (.undefined other)
  parameters : ∀ fn, c.Holds fn → ∀ params args other pos,
    (Configuration.bindParams ((c.session.arena.push fn.captured).1.enter
      (c.session.arena.push fn.captured).2) params args).2 ≠ some ⟨.undefined other, pos⟩

/-- **No interpreter ever holds a dangling handle**: at every moment while it answers a request,
after whatever other requests, the innermost scope, the active frames, the parents of frames, the
frames that blocks and calls go back to, and the frames captured by functions are there. So no
definition ever fails because a variable is undefined. -/
theorem no_dangling_handles {since : Nat} {c : Configuration} (h : Moment since c) :
    c.NoDangling since ∧ c.Defines := by
  have hsound := sound_moment h
  have hcarries := hsound.arena.carries
  have hscopes : ∀ x, x ∈ c.session.arena.active ∨ x = Arena.global → c.session.arena.Live x := by
    rintro x (hx | rfl)
    · exact hsound.arena.active x hx
    · exact hsound.arena.live_toplevel
  have hbound : ∀ fn, c.session.arena.Binds fn →
      since ≤ fn.identity ∧ c.session.arena.Live fn.captured := by
    intro fn hfn
    have hfn := hcarries fn (.inr hfn)
    exact ⟨hfn.since, hfn.live⟩
  have hunfinished : ∀ fn, c.Holds fn →
      since ≤ fn.identity ∧ c.session.arena.Live fn.captured := by
    intro fn hfn
    have hfn := hcarries fn (.inl (.inl hfn))
    exact ⟨hfn.since, hfn.live⟩
  have hheld : ∀ fn ∈ c.session.held, since ≤ fn.identity → c.session.arena.Live fn.captured := by
    intro fn hfn hsince
    have howns : c.session.Owns since fn := ⟨hfn, hsince⟩
    exact (hcarries fn (.inl (.inr howns))).live
  constructor
  · exact
      { current := hsound.arena.current
        active := hsound.arena.active
        parent := fun x f p hf hparent =>
          (hsound.arena.parent x f p hf hparent).imp fun _ hg => hg.1
        caller := fun scope hscope =>
          ⟨hsound.arena.active _ (hsound.scopes.frame scope hscope),
            hscopes _ (hsound.scopes.entered_from scope hscope)⟩
        bound := hbound
        unfinished := hunfinished
        pending := fun fn hfn => hheld fn (List.mem_append_left _ hfn)
        host := fun fn hfn => hheld fn (List.mem_append_right _ hfn) }
  · constructor
    · intro name v other
      exact Arena.define_ne_undefined hsound.arena.current name other v
    · intro fn hfn params args other pos
      have hpushed := hsound.arena.pushed (hunfinished fn hfn).2
      exact Arena.bindParams_ne_undefined hpushed.current params args other pos

/-- A function is declared in a block and called there. -/
def calledInBlock : Program :=
  [.block
    [.function ⟨"f", [], [.print (.literal .nil .start) .start], .start⟩,
      .expression (.call (.ident "f" .start) [] .start)]]

/-- In the call, two frames are active and the function is held by the stack. -/
theorem no_dangling_handles_calledInBlock :
    let c := Configuration.after 9 ⟨.done .normal, [.sequence calledInBlock],
      { Session.new (.new none) with pending := .normal }⟩
    Moment 0 c ∧ c.session.arena.active = [⟨2, 0⟩, ⟨1, 0⟩] ∧ c.NoDangling 0 := by
  intro c
  have h : Moment 0 c :=
    ⟨.new (.new none), .interpret calledInBlock, _, 9, .new _, rfl, rfl⟩
  have hactive : (Configuration.after 9 ⟨.done .normal, [.sequence calledInBlock],
      { Session.new (.new none) with pending := .normal }⟩).session.arena.active =
        [⟨2, 0⟩, ⟨1, 0⟩] := by decide +kernel
  exact ⟨h, hactive, (no_dangling_handles h).1⟩

end Script
