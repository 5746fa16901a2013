import Script.Proofs.Session.Balance

/-!
# Freeing frames cannot be observed

An interpreter that frees frames and uses their slots again answers every host as one would that
keeps every frame for ever.

- `Session.Follows`: an interpreter is found, under new names of frames, in one that keeps them.
- `Follows.answer`: both give the same answer to a request, and go on in the same way.
- `Session.SameState`, `Session.SameAnswers`: what a host can find out about two interpreters.
- `freeing_is_unobservable`: it finds no difference.
-/

namespace Script

/-! ## One interpreter found in the other -/

/-- The same function, and the same frame if it was made since the variables were last reset. -/
structure Closure.Matches (since : Nat) (φ : Handle → Handle) (f g : Closure) : Prop where
  identity : g.identity = f.identity
  decl : g.decl = f.decl
  captured : since ≤ f.identity → g.captured = φ f.captured

/-- An answer under new names of frames. -/
def Reply.rename (φ : Handle → Handle) : Reply → Reply
  | .value r => .value (r.map (Value.rename φ))
  | .found v => .found (v.map (Value.rename φ))
  | reply => reply

namespace Session

/-- A session is found, under new names of frames, in one that keeps every frame, and its host holds
the same functions. -/
structure Follows (since : Nat) (φ : Handle → Handle) (s t : Session) : Prop where
  embeds : s.Embeds φ t
  pending : t.pending.isNormal = s.pending.isNormal
  host : List.Forall₂ (Closure.Matches since φ) s.host t.host

variable {s t : Session} {since steps : Nat} {φ ψ : Handle → Handle} {r : Request}

/-- Both hosts are given the same value. -/
theorem Follows.keep (h : s.Follows since φ t) (v : Option Value) :
    (s.keep v).Follows since φ (t.keep (v.map (Value.rename φ))) := by
  obtain ⟨⟨harena, hsink, hdepth, hmaxDepth⟩, hpending, hhost⟩ := h
  cases v with
  | none => exact ⟨⟨harena, hsink, hdepth, hmaxDepth⟩, hpending, hhost⟩
  | some v =>
    refine ⟨⟨harena, hsink, hdepth, hmaxDepth⟩, hpending, ?_⟩
    cases v with
    | function f => exact .cons ⟨rfl, rfl, fun _ => rfl⟩ hhost
    | _ => exact hhost

theorem Follows.lookup (h : s.Follows since φ t) (hs : s.Sound since) (name : String) :
    t.lookup name = (s.lookup name).map (Value.rename φ) :=
  h.embeds.arena.get? hs.arena name

/-- Hosts that hold the same functions still do so under other names of frames, if these agree where
the names count. -/
theorem matches_congr {since' : Nat} {hosts hosts' : List Closure}
    (h : List.Forall₂ (Closure.Matches since φ) hosts hosts')
    (hagree : ∀ fn ∈ hosts, since' ≤ fn.identity →
      since ≤ fn.identity ∧ ψ fn.captured = φ fn.captured) :
    List.Forall₂ (Closure.Matches since' ψ) hosts hosts' := by
  induction h with
  | nil => exact .nil
  | @cons f g _ _ hfg _ ih =>
    obtain ⟨hf, hrest⟩ := List.forall_mem_cons.1 hagree
    refine .cons ⟨hfg.identity, hfg.decl, fun hsince => ?_⟩ (ih hrest)
    obtain ⟨hsince, hψ⟩ := hf hsince
    exact (hfg.captured hsince).trans hψ.symm

/-- Both start anew without variables. -/
theorem Follows.withPolicy (h : s.Follows since φ t) (hs : s.Sound since) (policy : Policy) :
    (s.withPolicy policy).Follows s.arena.nextFunction id (t.withPolicy policy) := by
  have hempty : (s.withPolicy policy).arena.Tidy :=
    (Arena.sound_new policy s.arena.nextFunction s.arena.reclaims).tidy
  have harena : (t.withPolicy policy).arena = (s.withPolicy policy).arena.keeping := by
    show { Arena.new policy t.arena.nextFunction with reclaims := t.arena.reclaims } = _
    rw [h.embeds.arena.nextFunction, h.embeds.arena.keeps]
    rfl
  refine ⟨⟨harena ▸ Arena.embeds_keeping hempty, h.embeds.sink, h.embeds.depth,
    h.embeds.maxDepth⟩, h.pending, matches_congr h.host fun fn hfn hsince => ?_⟩
  -- what the host holds is from before the reset
  exact absurd (hs.numbered fn (List.mem_append_right _ hfn)) (Nat.not_lt.2 hsince)

/-- Both hosts let go of the same function. -/
theorem Follows.letGoOf (h : s.Follows since φ t) (index : Nat) :
    (s.letGoOf index).Follows since φ (t.letGoOf index) := by
  obtain ⟨⟨harena, hsink, hdepth, hmaxDepth⟩, hpending, hhost⟩ := h
  refine ⟨⟨harena, hsink, hdepth, hmaxDepth⟩, hpending, ?_⟩
  show List.Forall₂ _ (s.host.eraseIdx index) (t.host.eraseIdx index)
  rw [List.eraseIdx_eq_take_drop_succ, List.eraseIdx_eq_take_drop_succ]
  exact List.rel_append (List.forall₂_take index hhost) (List.forall₂_drop (index + 1) hhost)

/-- Both start on a request in the same way. -/
theorem Follows.start (h : s.Follows since φ t) (r : Request) :
    Option.Rel (fun c d => c.Embeds φ d ∧ c.session.Follows since φ d.session) (r.start s)
      (r.start t) := by
  cases r with
  | interpret program =>
    obtain ⟨⟨harena, hsink, hdepth, hmaxDepth⟩, -, hhost⟩ := h
    exact .some ⟨⟨rfl, rfl, harena, hsink, hdepth, hmaxDepth⟩,
      ⟨harena, hsink, hdepth, hmaxDepth⟩, rfl, hhost⟩
  | exec st =>
    simp only [Request.start, h.pending]
    split
    · exact .some ⟨⟨rfl, rfl, h.embeds⟩, h⟩
    · exact .none
  | eval e => exact .some ⟨⟨rfl, rfl, h.embeds⟩, h⟩
  | _ => exact .none

/-- Two answers are the same up to the names of frames, and leave two interpreters of which one is
found in the other. -/
structure SameAnswer (since : Nat) (φ : Handle → Handle) (a b : Reply × Session) : Prop where
  reply : b.1 = a.1.rename φ
  follows : a.2.Follows since φ b.2

theorem Follows.atOnce (h : s.Follows since φ t) (hs : s.Sound since) (r : Request) :
    ∃ ψ, SameAnswer (r.since s since) ψ (r.atOnce s) (r.atOnce t) := by
  cases r with
  | lookup name =>
    have hlookup := h.lookup hs name
    refine ⟨φ, congrArg Reply.found hlookup, ?_⟩
    show Follows since φ (s.keep (s.lookup name)) (t.keep (t.lookup name))
    rw [hlookup]
    exact h.keep (s.lookup name)
  | setPolicy policy => exact ⟨id, rfl, h.withPolicy hs policy⟩
  | setMaxDepth depth =>
    obtain ⟨⟨harena, hsink, hdepth, -⟩, hpending, hhost⟩ := h
    exact ⟨φ, rfl, ⟨harena, hsink, hdepth, rfl⟩, hpending, hhost⟩
  | drop index => exact ⟨φ, rfl, h.letGoOf index⟩
  | interpret program => exact ⟨φ, rfl, h⟩
  | exec st => exact ⟨φ, rfl, h⟩
  | eval e => exact ⟨φ, rfl, h⟩

/-- Runs with the same end give the same answers. -/
theorem Follows.finish {e e' : Except Diagnostic Outcome}
    (h : s.Follows since ψ t) (he : e' = e.map (Outcome.rename ψ)) (r : Request) :
    SameAnswer since ψ (r.finish e s) (r.finish e' t) := by
  subst he
  have hplain : ∀ signal signal' : Signal, signal'.isNormal = signal.isNormal →
      Follows since ψ { s with pending := signal } { t with pending := signal' } := by
    intro signal signal' hsame
    obtain ⟨⟨harena, hsink, hdepth, hmaxDepth⟩, -, hhost⟩ := h
    exact ⟨⟨harena, hsink, hdepth, hmaxDepth⟩, hsame, hhost⟩
  cases r with
  | eval ex =>
    have hvalue := Outcome.map_asValue_rename (φ := ψ) e
    refine ⟨congrArg Reply.value hvalue.symm, ?_⟩
    have hoption : ((e.map (Outcome.rename ψ)).map Outcome.asValue).toOption =
        (e.map Outcome.asValue).toOption.map (Value.rename ψ) := by
      rw [← hvalue]
      cases e <;> rfl
    show Follows since ψ (s.keep (e.map Outcome.asValue).toOption)
      (t.keep ((e.map (Outcome.rename ψ)).map Outcome.asValue).toOption)
    rw [hoption]
    exact h.keep _
  | exec st =>
    cases e with
    | error d => exact ⟨rfl, h⟩
    | ok o =>
      refine ⟨rfl, hplain _ _ ?_⟩
      rw [Outcome.asSignal_rename, Signal.isNormal_rename]
  | _ => exact ⟨by cases e <;> rfl, hplain _ _ rfl⟩

/-- **One answer of both.** -/
theorem Follows.answer (h : s.Follows since φ t) (hs : s.Sound since) (ht : t.Sound since)
    (steps : Nat) (r : Request) :
    Option.Rel (fun a b => ∃ ψ, SameAnswer (r.since s since) ψ a b) (s.answer steps r)
      (t.answer steps r) := by
  rw [Request.answer_eq, Request.answer_eq]
  rcases rel_cases (h.start r) with ⟨hc, hd⟩ | ⟨c, d, hc, hd, hcd, hfollows⟩
  · rw [hc, hd]
    exact .some (h.atOnce hs r)
  · rw [hc, hd, since_of_start hc]
    obtain ⟨hsound, -⟩ := hs.start hc
    obtain ⟨hsound', -⟩ := ht.start hd
    obtain ⟨ψ, hrun, hagree⟩ := hcd.tracks.run hsound hsound' steps
    show Option.Rel _ ((c.run steps).map _) ((d.run steps).map _)
    rcases rel_cases hrun with ⟨hx, hy⟩ | ⟨⟨e, u⟩, ⟨e', v⟩, hx, hy, hend⟩
    · rw [hx, hy]
      exact .none
    · rw [hx, hy]
      have hu := Configuration.settings_run hx
      have hv := Configuration.settings_run hy
      have hhost : List.Forall₂ (Closure.Matches since ψ) u.host v.host := by
        rw [hu.host, hv.host]
        refine matches_congr hfollows.host fun fn hfn hsince => ⟨hsince, hagree fn ⟨?_, hsince⟩⟩
        exact List.mem_append_right _ hfn
      have huv : u.Follows since ψ v :=
        ⟨hend.session, by rw [hu.pending, hv.pending]; exact hfollows.pending, hhost⟩
      exact .some ⟨ψ, huv.finish hend.outcome r⟩

/-! ## What a host finds out -/

/-- A host finds no difference between two interpreters, up to the names of frames: they have
written the same, names have the same values at top level, the host holds the same functions, and
what they write while they answer a next request is the same at every moment, whether or not the
run ends. -/
structure SameState (since : Nat) (φ : Handle → Handle) (s t : Session) : Prop where
  sink : t.sink = s.sink
  toplevel : s.arena.current = Arena.global ∧ t.arena.current = Arena.global
  lookup : ∀ name, t.lookup name = (s.lookup name).map (Value.rename φ)
  frames : s.arena.Embeds φ t.arena
  host : List.Forall₂ (Closure.Matches since φ) s.host t.host
  running : ∀ r : Request, Option.Rel
    (fun c d => ∀ n, (d.after n).session.sink = (c.after n).session.sink) (r.start s) (r.start t)

/-- A host that makes these requests one after the other is given the same answers by two
interpreters, and finds no difference between them before and after each. -/
def SameAnswers (steps : Nat) : Nat → List Request → Session → Session → Prop
  | since, [], s, t => ∃ φ, SameState since φ s t
  | since, r :: rest, s, t =>
    (∃ φ, SameState since φ s t) ∧
      Option.Rel (fun a b =>
        (∃ ψ, b.1 = a.1.rename ψ ∧ SameState (r.since s since) ψ a.2 b.2) ∧
          SameAnswers steps (r.since s since) rest a.2 b.2) (s.answer steps r) (t.answer steps r)

theorem Follows.sameState (h : s.Follows since φ t) (hs : Reached since s) (ht : t.Sound since) :
    SameState since φ s t := by
  have hsound := sound_reached hs
  have hcurrent : s.arena.current = Arena.global := congrArg Standing.current (standing_reached hs)
  refine ⟨h.embeds.sink, ⟨hcurrent, ?_⟩, h.lookup hsound, h.embeds.arena, h.host, fun r => ?_⟩
  · rw [h.embeds.arena.current, hcurrent, h.embeds.arena.toplevel]
  · rcases rel_cases (h.start r) with ⟨hc, hd⟩ | ⟨c, d, hc, hd, hcd, -⟩
    · rw [hc, hd]
      exact .none
    · rw [hc, hd]
      refine .some fun n => ?_
      obtain ⟨ψ, hψ, -⟩ := hcd.tracks.after (hsound.start hc).1 (ht.start hd).1 n
      exact hψ.session.sink

theorem Follows.since_eq (h : s.Follows since φ t) (r : Request) :
    r.since t since = r.since s since := by
  cases r with
  | setPolicy policy => exact h.embeds.arena.nextFunction
  | _ => rfl

/-- An interpreter that is found in another one gives the same answers. -/
theorem Follows.sameAnswers (h : s.Follows since φ t) (hs : Reached since s) (ht : t.Sound since)
    (steps : Nat) (requests : List Request) : SameAnswers steps since requests s t := by
  induction requests generalizing since φ s t with
  | nil => exact ⟨φ, h.sameState hs ht⟩
  | cons r rest ih =>
    refine ⟨⟨φ, h.sameState hs ht⟩, ?_⟩
    rcases rel_cases (h.answer (sound_reached hs) ht steps r) with
      ⟨ha, hb⟩ | ⟨⟨reply, s'⟩, ⟨reply', t'⟩, ha, hb, ψ, hreply, hfollows⟩
    · rw [ha, hb]
      exact .none
    · rw [ha, hb]
      have hreached : Reached (r.since s since) s' := .answer hs ha
      have hsound : t'.Sound (r.since s since) := h.since_eq r ▸ ht.answer hb
      exact .some ⟨⟨ψ, hreply, hfollows.sameState hreached hsound⟩,
        ih hfollows hreached hsound⟩

/-- A new interpreter is found in the one that keeps every frame. -/
theorem follows_keeping (sink : Sink) :
    (Session.new sink).Follows 0 id (Session.new sink).keeping := by
  refine ⟨⟨Arena.embeds_keeping (Arena.tidy_new .strict 0), rfl, rfl, rfl⟩, rfl, .nil⟩

theorem sound_keeping (sink : Sink) : (Session.new sink).keeping.Sound 0 :=
  have hnew := sound_new sink
  ⟨hnew.arena.keeping, hnew.current, hnew.numbered⟩

end Session

/-- **Freeing frames cannot be observed.** Whatever programs, statements and expressions a host has
run, under whatever policy, limit and sink, an interpreter that frees frames and uses their slots
again gives the same answers, with the same failures, writes the same at every moment, and leaves
every name with the same value up to the names of frames, as one that never frees a frame. -/
theorem freeing_is_unobservable (sink : Sink) (steps : Nat) (requests : List Request) :
    Session.SameAnswers steps 0 requests (.new sink) (Session.new sink).keeping :=
  (Session.follows_keeping sink).sameAnswers (.new sink) (Session.sound_keeping sink) steps requests

/-- Frames are freed, all the same: here that of a block. -/
example :
    let s := Session.new (.new none)
    (s.interpret 20 [.block []]).map (·.2.arena.live) = some 1 ∧
      (s.keeping.interpret 20 [.block []]).map (·.2.arena.live) = some 2 := by
  decide +kernel

end Script
