import Script.Proofs.Arena.Retention
import Script.Proofs.Session.Balance

/-!
# Runs of any length retain boundedly many frames

Loops, calls and blocks push and release frames without end, and functions made on the way pin them.
Along every run, and from one request to the next, the frames that no scope needs any more stay
within what the last collection left and the threshold it set.

- `Configuration.leaves?`, `Configuration.collects`: the frame that a step releases, and whether
  frames are collected then.
- `Configuration.survivors`, `Session.Retained`: how many frames the last collection left, along a
  run and from request to request.
- `retains_step`, `retains_after`: the invariant along a run.
- `retained_frames_bounded`: the bound for clients of an arena and for runs.
-/

namespace Script

namespace Configuration

variable {c : Configuration} {S : Nat} {x : Handle}

/-! ## Collections along a run -/

/-- The frame that the step of a configuration releases: that of the scope which it leaves. -/
def leaves? (c : Configuration) : Option Handle :=
  match c.control, c.stack with
  | .done _, p :: _ => p.scope?.map Scope.frame
  | .failed _, p :: _ => p.scope?.map Scope.frame
  | _, _ => none

/-- Whether the step of a configuration collects frames. -/
def collects (c : Configuration) : Bool :=
  match c.leaves? with
  | some x => c.session.arena.fills x
  | none => false

/-- How many frames were live right after the last collection in the course of a run, when it was
`S` for the last one before. -/
def survivors (c : Configuration) (S : Nat) : Nat → Nat
  | 0 => S
  | n + 1 => c.step.survivors (if c.collects then c.step.session.arena.live else S) n

/-- A step that leaves a scope goes back to the frame it was entered from, and releases its own. -/
theorem step_of_leaves (h : c.leaves? = some x) :
    ∃ caller outside, c.step.session.arena = leaveFrame c.session.arena x caller outside := by
  obtain ⟨control, k, s⟩ := c
  cases k with
  | nil => cases control <;> cases h
  | cons p k =>
    cases control with
    | eval e => cases h
    | exec st => cases h
    | done o =>
      obtain ⟨scope, hscope, rfl⟩ := Option.map_eq_some_iff.1 (show p.scope?.map _ = _ from h)
      cases p <;> cases hscope <;> exact ⟨_, _, rfl⟩
    | failed d =>
      obtain ⟨scope, hscope, rfl⟩ := Option.map_eq_some_iff.1 (show p.scope?.map _ = _ from h)
      cases p <;> cases hscope <;> exact ⟨_, _, rfl⟩

/-- A step that takes a scope off the stack leaves it. -/
theorem leaves_of_scopes {scope : Scope}
    (hscopes : Stack.scopes c.stack = scope :: Stack.scopes c.step.stack) : c.leaves? ≠ none := by
  rcases step_cases c with ⟨⟨hempty, -⟩, -⟩ | ⟨taken, k, y, put, t, htaken, hcourse, hstep⟩
  · rw [hempty] at hscopes
    cases hscopes
  · rw [htaken, hstep, scopes_append, scopes_append, ← List.cons_append] at hscopes
    have hleft := List.append_cancel_right hscopes
    rcases hcourse.taken_cases with rfl | ⟨p, rfl, hended⟩
    · cases hleft
    · intro hnone
      have hscope : p.scope? = none := by
        unfold leaves? at hnone
        rcases hended with ⟨o, ho⟩ | ⟨d, hd⟩
        · rw [ho, htaken] at hnone
          exact Option.map_eq_none_iff.1 hnone
        · rw [hd, htaken] at hnone
          exact Option.map_eq_none_iff.1 hnone
      rw [Stack.scopes_cons, hscope] at hleft
      cases hleft

/-- **One step keeps the frames accounted for.** -/
theorem retains_step (h : c.session.arena.Retains S) :
    c.step.session.arena.Retains (if c.collects then c.step.session.arena.live else S) := by
  cases hleaves : c.leaves? with
  | some x =>
    obtain ⟨caller, outside, harena⟩ := step_of_leaves hleaves
    have hcollects : c.collects = (c.session.arena.enter caller).fills x := by
      rw [collects, hleaves]
      rfl
    rw [hcollects, harena]
    exact (h.enter caller).release x outside
  | none =>
    have hcollects : c.collects = false := by rw [collects, hleaves]
    rw [hcollects, if_neg Bool.false_ne_true]
    cases (effect_step c).change with
    | none arena => exact arena ▸ h
    | put y name v arena => exact arena ▸ h.put y name v
    | make decl arena => exact arena ▸ (h.closure decl).define _ _
    | enter parent params args calls within arena =>
      rw [arena]
      exact Arena.bindParams_induction (P := fun b => b.Retains S) params
        (fun b name v _ hb => hb.define name v) ((h.push parent).enter _)
    | leave frame caller calls outside arena told depth scopes =>
      exact absurd hleaves (leaves_of_scopes scopes)

/-- Every run keeps the frames accounted for. -/
theorem retains_after (h : c.session.arena.Retains S) (n : Nat) :
    (c.after n).session.arena.Retains (c.survivors S n) := by
  induction n generalizing c S with
  | zero => exact h
  | succ n ih => exact ih (retains_step h)

end Configuration

/-! ## From request to request -/

/-- How many frames were live right after the last collection before or during a request, which is
answered within some number of steps. Variables that are reset begin with the top-level frame. -/
def Request.survivors (s : Session) (S steps : Nat) : Request → Nat
  | .setPolicy _ => 1
  | r =>
    match r.start s with
    | some c => c.survivors S steps
    | none => S

namespace Session

variable {s t : Session} {S : Nat} {r : Request}

/-- A host can bring an interpreter into the state `s`, and the last collection since the variables
were reset has left `S` frames. If there was none, that is the one frame there was at first. -/
inductive Retained : Nat → Session → Prop
  | new (sink : Sink) : Retained 1 (.new sink)
  | answer {S steps : Nat} {s s' : Session} {r : Request} {reply : Reply} :
    Retained S s → s.answer steps r = some (reply, s') → Retained (r.survivors s S steps) s'

/-- The number of frames left is known for every interpreter. -/
theorem Reached.retained {since : Nat} (h : Reached since s) : ∃ S, Retained S s := by
  induction h with
  | new sink => exact ⟨1, .new sink⟩
  | answer _ hanswer ih =>
    obtain ⟨S, hS⟩ := ih
    exact ⟨_, .answer hS hanswer⟩

/-- An interpreter comes about by requests. -/
theorem Retained.reached (h : Retained S s) : ∃ since, Reached since s := by
  induction h with
  | new sink => exact ⟨0, .new sink⟩
  | answer _ hanswer ih =>
    obtain ⟨since, hs⟩ := ih
    exact ⟨_, .answer hs hanswer⟩

theorem arena_start {c : Configuration} (h : r.start s = some c) :
    c.session.arena = s.arena := by
  cases r with
  | interpret program =>
    obtain rfl := Option.some.inj h
    rfl
  | exec st =>
    simp only [Request.start] at h
    split at h
    · obtain rfl := Option.some.inj h
      rfl
    · cases h
  | eval e =>
    obtain rfl := Option.some.inj h
    rfl
  | lookup name => cases h
  | setPolicy policy => cases h
  | setMaxDepth depth => cases h
  | drop index => cases h

theorem survivors_of_start {c : Configuration} {steps : Nat} (h : r.start s = some c) :
    r.survivors s S steps = c.survivors S steps := by
  cases r with
  | setPolicy policy => cases h
  | _ => simp only [Request.survivors, h]

/-- Between requests the frames are accounted for. -/
theorem Retained.retains (h : Retained S s) : s.arena.Retains S := by
  induction h with
  | new sink => exact Arena.retains_new .strict 0
  | @answer S steps s t r reply _ hanswer ih =>
    rcases Request.answer_cases hanswer with ⟨c, e, u, hstart, hrun, hfinish⟩ | ⟨hstart, hatOnce⟩
    · obtain rfl : t = (r.finish e u).2 := congrArg Prod.snd hfinish
      rw [arena_finish, survivors_of_start hstart, ← (Configuration.after_of_run hrun).1]
      exact Configuration.retains_after (by rwa [arena_start hstart]) steps
    · obtain rfl : t = (r.atOnce s).2 := congrArg Prod.snd hatOnce
      cases r with
      | lookup name => exact (arena_keep s _).symm ▸ ih
      | setPolicy policy =>
        have hreclaims := ih.reclaims
        have hnew := Arena.retains_new policy s.arena.nextFunction
        exact hnew.congr (hnew.tidy.congr rfl rfl) (fun _ => Iff.rfl) hreclaims rfl rfl rfl rfl
      | setMaxDepth depth => exact ih
      | drop index => exact ih
      | interpret program => cases hstart
      | exec st =>
        have hsurvivors : Request.survivors s S steps (.exec st) = S := by
          simp only [Request.survivors, hstart]
        rw [hsurvivors]
        exact ih
      | eval e => cases hstart

end Session

/-! ## The bound -/

/-- Where no scope remains to be left, no frame is active. -/
theorem active_of_no_scopes {since : Nat} {c : Configuration} (h : Moment since c)
    (hscopes : Stack.scopes c.stack = []) : c.session.arena.active = [] := by
  obtain ⟨s, r, first, n, hs, hstart, rfl⟩ := h
  have hrestores := Configuration.after_induction
    (P := fun d => d.restores (Stack.scopes d.stack) = s.standing)
    (fun d hd => (Configuration.restores_step d).trans hd) (Session.restores_start hstart) n
  rw [hscopes, Session.standing_reached hs] at hrestores
  exact congrArg Standing.active hrestores

/-- **Retained frames stay bounded.** Let `S` be the number of frames that the last collection left,
which is the number of frames it could reach, or one before the first. In an arena that is used in
whatever order and through whatever handles it issued, and at every moment of every run of an
interpreter, there are at most `S + max (2 * S) 256 - 1` frames more than active ones. So where no
scope is open, as between the statements at top level, there are fewer than `3 * S + 256`. -/
theorem retained_frames_bounded :
    (∀ (policy : Policy) (n : Nat) (events : List Client.Event),
      let a := (Client.history policy n events).arena
      let S := (Client.new policy n).survivors 1 events
      a.live ≤ a.active.length + S + max (2 * S) 256 - 1) ∧
    (∀ (S₀ : Nat) (s : Session) (r : Request) (first : Configuration) (n : Nat),
      Session.Retained S₀ s → r.start s = some first →
        let c := first.after n
        let S := first.survivors S₀ n
        c.session.arena.live ≤ c.session.arena.active.length + S + max (2 * S) 256 - 1 ∧
          (Stack.scopes c.stack = [] → c.session.arena.live < 3 * S + 256)) ∧
    (∀ (since : Nat) (s : Session), Session.Reached since s → ∃ S, Session.Retained S s ∧
      s.arena.live < 3 * S + 256) ∧
    (∀ (a : Arena) (outside : List Closure), a.Tidy → a.reclaims = true →
      (a.collect outside).live = {x | a.Live x ∧ a.Reaches (a.roots outside) x}.ncard) := by
  -- with no frame active, the bound is less than three times what was left and one threshold
  have hidle : ∀ {a : Arena} {S : Nat}, a.Retains S → a.active = [] → a.live < 3 * S + 256 := by
    intro a S h hactive
    have hbound := h.bound
    rw [hactive, List.length_nil, Arena.minThreshold] at hbound
    omega
  refine ⟨fun policy n events => ?history, fun S₀ s r first n hs hstart => ?moment,
    fun since s hs => ?between, fun a outside htidy hr => Arena.live_collect htidy hr outside⟩
  case history => exact (Client.retains_history (Arena.retains_new policy n) events).bound
  case moment =>
    have hretains : (first.after n).session.arena.Retains (first.survivors S₀ n) :=
      Configuration.retains_after (by rw [Session.arena_start hstart]; exact hs.retains) n
    obtain ⟨since, hreached⟩ := hs.reached
    refine ⟨hretains.bound, fun hscopes => hidle hretains ?_⟩
    exact active_of_no_scopes ⟨s, r, first, n, hreached, hstart, rfl⟩ hscopes
  case between =>
    obtain ⟨S, hS⟩ := hs.retained
    exact ⟨S, hS, hidle hS.retains (congrArg Standing.active (Session.standing_reached hs))⟩

/-- A function is made in a block and dropped when the block ends. -/
def abandonedFunction : Program := [.block [.function ⟨"f", [], [], .start⟩], .print
  (.literal .nil .start) .start]

/-- Between the two statements the frame of the block is retained, and no scope is open. -/
theorem retained_frames_bounded_abandonedFunction :
    let first : Configuration :=
      ⟨.done .normal, [.sequence abandonedFunction],
        { Session.new (.new none) with pending := .normal }⟩
    let c := first.after 6
    Stack.scopes c.stack = [] ∧ c.session.arena.live = 2 ∧ first.survivors 1 6 = 1 ∧
      c.session.arena.live < 3 * first.survivors 1 6 + 256 := by
  intro first c
  have hscopes : Stack.scopes c.stack = [] := by
    have : (Stack.scopes c.stack).length = 0 := by decide +kernel
    exact List.length_eq_zero_iff.1 this
  have hlive : c.session.arena.live = 2 := by decide +kernel
  have hsurvivors : first.survivors 1 6 = 1 := by decide +kernel
  obtain ⟨-, hmoment, -, -⟩ := retained_frames_bounded
  refine ⟨hscopes, hlive, hsurvivors, ?_⟩
  exact (hmoment 1 _ (.interpret abandonedFunction) first 6 (.new (.new none)) rfl).2 hscopes

end Script
