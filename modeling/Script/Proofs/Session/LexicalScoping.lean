import Script.Proofs.Machine.Finishing
import Script.Proofs.Machine.Mirroring
import Script.Proofs.Machine.Sequencing
import Script.Proofs.Session.Soundness

/-!
# Scoping is lexical

A call sees the frames that its function captured, those that its arguments captured, and what these
lead to. Which scope it is called from, what the variables elsewhere hold, and what remains to be
done afterwards makes no difference to it.

- `Arena.seen`: the frames that a call can see.
- `CallSite`: a function can be called there; at every moment of every run, calls are made at such
  places.
- `SameSight`: two places look the same to a call.
- `SameMoment`: two calls are at the same point, up to the names of newer frames.
- `scoping_is_lexical`: calls from places that look the same are at the same point at any time.
-/

namespace Script

variable {f : Closure} {args : List Value} {k k' : Stack} {s t s' : Session} {since since' : Nat}
  {pos : Position} {x : Handle} {name : String} {v : Value} {c d : Configuration} {n : Nat}

/-! ## What a call can see -/

/-- The functions that a call is made with. -/
def passed (f : Closure) (args : List Value) : List Closure := f :: args.flatMap Value.functions

/-- The frames that a call can see: those that its function and its arguments lead to, through
the frames around and the functions bound. -/
def Arena.seen (a : Arena) (f : Closure) (args : List Value) : Set Handle :=
  {x | a.Reaches ((passed f args).map (·.captured)) x}

theorem captured_mem_seen (a : Arena) {fn : Closure} (h : fn ∈ passed f args) :
    fn.captured ∈ a.seen f args :=
  .start (List.mem_map_of_mem h)

/-- The function `f` can be called with `args` in the session `s`, with `k` to do afterwards: no
handle dangles, and the innermost scope is active or at top level. -/
structure CallSite (since : Nat) (f : Closure) (args : List Value) (k : Stack) (s : Session) :
    Prop where
  arena : s.arena.Sound since fun fn =>
    (fn ∈ passed f args ∨ fn ∈ Stack.functions k) ∨ s.Owns since fn
  current : s.arena.current = Arena.global ∨ s.arena.current ∈ s.arena.active

/-- What a call is made with, and what is held behind it, is held by the machine. -/
theorem holds_of_attempt (h : c.attempt? = some (.call (.function f) args pos, k)) {fn : Closure}
    (hfn : fn ∈ passed f args ∨ fn ∈ Stack.functions k) : c.Holds fn := by
  obtain ⟨control, stack, s⟩ := c
  simp only [Configuration.attempt?] at h
  split at h <;> simp only [Option.some.injEq, Prod.mk.injEq, Attempt.call.injEq, reduceCtorEq,
    false_and] at h
  case h_1 o pos k =>
    obtain ⟨⟨hcallee, rfl, -⟩, rfl⟩ := h
    rcases hfn with hfn | hfn
    · obtain rfl := List.mem_singleton.1 hfn
      exact .inl (Outcome.mem_functions_of_asValue (hcallee ▸ List.mem_cons_self))
    · exact .inr hfn
  case h_2 o callee before pos k =>
    obtain ⟨⟨rfl, rfl, -⟩, rfl⟩ := h
    have hstack : fn = f ∨ (∃ v ∈ before, fn ∈ v.functions) ∨ fn ∈ Stack.functions k →
        fn ∈ Stack.functions (.argument (.function f) before [] pos :: k) := by
      rw [Stack.functions_cons, List.mem_append]
      rintro (rfl | ⟨v, hv, hfn⟩ | hfn)
      · exact .inl List.mem_cons_self
      · exact .inl (List.mem_cons_of_mem _ (List.mem_flatMap.2 ⟨v, hv, hfn⟩))
      · exact .inr hfn
    rcases hfn with hfn | hfn
    · rcases List.mem_cons.1 hfn with rfl | hfn
      · exact .inr (hstack (.inl rfl))
      · obtain ⟨v, hv, hfn⟩ := List.mem_flatMap.1 hfn
        rcases List.mem_cons.1 (List.mem_reverse.1 hv) with rfl | hv
        · exact .inl (Outcome.mem_functions_of_asValue hfn)
        · exact .inr (hstack (.inr (.inl ⟨v, hv, hfn⟩)))
    · exact .inr (hstack (.inr (.inr hfn)))

/-- At every moment of every run, every function that is held or bound can be called with such
functions among its arguments. -/
theorem callSite_of_moment (h : Moment since c)
    (hpassed : ∀ fn ∈ passed f args,
      (c.Holds fn ∨ c.session.Owns since fn) ∨ c.session.arena.Binds fn)
    (hk : ∀ fn ∈ Stack.functions k, c.Holds fn) : CallSite since f args k c.session := by
  have hsound := sound_moment h
  constructor
  · refine hsound.arena.mono fun fn hfn => ?_
    rcases hfn with (hfn | hfn) | hfn
    · exact hpassed fn hfn
    · exact .inl (.inl (hk fn hfn))
    · exact .inl (.inr hfn)
  · rw [hsound.scopes.current_eq]
    cases c.session.arena.active with
    | nil => exact .inl rfl
    | cons x older => exact .inr List.mem_cons_self

/-- At every moment of every run, a call that is attempted is made at such a place. -/
theorem callSite_of_attempt (h : Moment since c)
    (hattempt : c.attempt? = some (.call (.function f) args pos, k)) :
    CallSite since f args k c.session :=
  callSite_of_moment h (fun _ hfn => .inl (.inl (holds_of_attempt hattempt (.inl hfn))))
    fun _ hfn => holds_of_attempt hattempt (.inr hfn)

/-- A call can be made from another scope that is active or at top level. -/
theorem CallSite.enter (h : CallSite since f args k s)
    (hx : x = Arena.global ∨ x ∈ s.arena.active) :
    CallSite since f args k { s with arena := s.arena.enter x } where
  arena := by
    refine h.arena.enter ?_
    rcases hx with rfl | hx
    · exact h.arena.live_toplevel
    · exact h.arena.active x hx
  current := hx

/-- A call can be made after a variable was given another value. -/
theorem CallSite.put (h : CallSite since f args k s)
    (hv : ∀ fn ∈ v.functions, fn ∈ passed f args ∨ s.arena.Binds fn) (x : Handle) (name : String) :
    CallSite since f args k { s with arena := s.arena.put x name v } where
  arena := h.arena.put (fun fn hfn => (hv fn hfn).imp (fun h => .inl (.inl h)) id) x name
  current := h.current

/-- The sessions `s` and `t` look the same to a call: the frames it can see are the same, and so are
the sink, the limits, and the number of the next function. -/
structure SameSight (f : Closure) (args : List Value) (s t : Session) : Prop where
  frame : ∀ x ∈ s.arena.seen f args, t.arena.frame? x = s.arena.frame? x
  nextFunction : t.arena.nextFunction = s.arena.nextFunction
  policy : t.arena.policy = s.arena.policy
  sink : t.sink = s.sink
  depth : t.depth = s.depth
  maxDepth : t.maxDepth = s.maxDepth

/-- Every frame that a call can see is there. -/
theorem CallSite.live_of_seen (h : CallSite since f args k s) (hx : x ∈ s.arena.seen f args) :
    s.arena.Live x := by
  induction hx with
  | start hmem =>
    obtain ⟨fn, hfn, rfl⟩ := List.mem_map.1 hmem
    exact (h.arena.carries fn (.inl (.inl (.inl hfn)))).live
  | link _ hf hmem _ => exact h.arena.live_link hf _ hmem

theorem SameSight.corresponds (h : SameSight f args s t) (hs : CallSite since f args k s) :
    s.Corresponds (s.arena.seen f args) id t where
  arena :=
    { frame := by
        intro x hx
        obtain ⟨g, hg⟩ := hs.live_of_seen hx
        refine ⟨g, hg, ?_, fun y hy => .link hx hg hy⟩
        rw [Frame.rename_id, id_eq, h.frame x hx, hg]
      injective := Function.injective_id.injOn
      nextFunction := h.nextFunction
      policy := h.policy }
  sink := h.sink
  depth := h.depth
  maxDepth := h.maxDepth

/-! ## The body of a call -/

/-- What a call ends with: the value that its body has returned, or its failure. -/
def Control.returned : Control → Control
  | .done o => .done (.value o.asValue)
  | control => control

theorem Control.returned_rename (φ : Handle → Handle) (control : Control) :
    (control.rename φ).returned = control.returned.rename φ := by
  cases control with
  | done o => exact congrArg (fun v => Control.done (.value v)) (Outcome.asValue_rename o)
  | _ => rfl

theorem Control.mem_functions_of_returned {control : Control} {fn : Closure}
    (h : fn ∈ control.returned.functions) : fn ∈ control.functions := by
  cases control with
  | done o => exact Outcome.mem_functions_of_asValue h
  | _ => exact h

namespace Configuration

/-- What a call has to do after its body. -/
def returning (f : Closure) (k : Stack) (s : Session) : Stack :=
  .leaveCall f (s.arena.push f.captured).2 s.arena.current :: k

theorem above_returning_ne (top : Stack) (f : Closure) (k : Stack) (s : Session) :
    top ++ returning f k s ≠ k := by
  intro heq
  have hlength := congrArg List.length heq
  rw [List.length_append, returning, List.length_cons] at hlength
  omega

/-- A stack that holds given functions, and leaves no scope. -/
def holding (fns : List Closure) : Stack := [.argument .nil (fns.map .function) [] .start]

theorem functions_holding (fns : List Closure) : Stack.functions (holding fns) = fns := by
  show [] ++ (fns.map Value.function).flatMap Value.functions ++ [] = fns
  rw [List.nil_append, List.append_nil, List.flatMap_map]
  exact List.flatMap_singleton' fns

/-- A call fails at once, or enters its function. -/
theorem call_cases (f : Closure) (args : List Value) (pos : Position) (k : Stack) (s : Session) :
    (∃ d, call (.function f) args pos k s = ⟨.failed d, k, s⟩) ∨
    ∃ control top, control.functions = [] ∧ Stack.functions top = [] ∧ Stack.scopes top = [] ∧
      call (.function f) args pos k s = ⟨control, top ++ returning f k s,
        { s with
          arena := (bindParams ((s.arena.push f.captured).1.enter (s.arena.push f.captured).2)
            f.decl.params args).1
          depth := s.depth + 1 }⟩ := by
  unfold call
  simp only
  split
  · exact .inl ⟨_, rfl⟩
  split
  · exact .inl ⟨_, rfl⟩
  split
  · exact .inr ⟨_, [.sequence f.decl.body], rfl, rfl, rfl, rfl⟩
  · exact .inr ⟨_, [], rfl, rfl, rfl, rfl⟩

end Configuration

open Script.Configuration

/-- The body of the call that begins as `c` is run by `d` as well, which holds the same functions
but has no scope to leave afterwards. No handle dangles there. -/
structure Body (since : Nat) (f : Closure) (k : Stack) (s : Session) (c d : Configuration) :
    Prop where
  rebased : c.Rebased (returning f k s) (holding (f :: Stack.functions k)) d
  sound : d.Sound since (s.Owns since)
  scopes : Stack.scopes d.stack = []
  active : d.session.arena.active = (s.arena.push f.captured).2 :: s.arena.active

/-- The body of a call is run without a dangling handle, if the call enters it. -/
theorem CallSite.body (h : CallSite since f args k s)
    (henters : ∃ top, (call (.function f) args pos k s).stack = top ++ returning f k s) :
    ∃ d, Body since f k s (call (.function f) args pos k s) d := by
  obtain ⟨above, habove⟩ := henters
  rcases call_cases f args pos k s with ⟨d, hcall⟩ | ⟨control, top, hcontrol, htop, hscopes, hcall⟩
  · rw [hcall] at habove
    exact absurd habove.symm (above_returning_ne above f k s)
  have hf := (h.arena.carries f (.inl (.inl (.inl List.mem_cons_self)))).live
  have hargs : ∀ v ∈ args, ∀ fn ∈ v.functions,
      (fn ∈ passed f args ∨ fn ∈ Stack.functions k) ∨ s.Owns since fn := fun v hv fn hfn =>
    .inl (.inl (List.mem_cons_of_mem _ (List.mem_flatMap.2 ⟨v, hv, hfn⟩)))
  have hbound := (h.arena.pushed hf).bindParams f.decl.params hargs
  obtain ⟨hactive, hcurrent, -⟩ := Arena.bindParams_eq
    ((s.arena.push f.captured).1.enter (s.arena.push f.captured).2) f.decl.params args
  have hheld : Stack.functions (top ++ holding (f :: Stack.functions k)) =
      f :: Stack.functions k := by
    rw [Stack.functions_append, htop, functions_holding, List.nil_append]
  have hscopes' : Stack.scopes (top ++ holding (f :: Stack.functions k)) = [] := by
    rw [scopes_append, hscopes]
    rfl
  refine ⟨⟨control, top ++ holding (f :: Stack.functions k), { s with
      arena := (bindParams ((s.arena.push f.captured).1.enter (s.arena.push f.captured).2)
        f.decl.params args).1
      depth := s.depth + 1 }⟩, ?_, ⟨?_, ?_, ?_⟩, hscopes', hactive.trans (Arena.active_push ..)⟩
  · rw [hcall]
    exact ⟨rfl, rfl, top, rfl, rfl⟩
  · refine hbound.mono fun fn hfn => .inl ?_
    rcases hfn with (hfn | hfn) | hfn
    · rw [hcontrol] at hfn
      cases hfn
    · rw [show Stack.functions _ = f :: Stack.functions k from hheld] at hfn
      rcases List.mem_cons.1 hfn with rfl | hfn
      · exact .inl (.inl List.mem_cons_self)
      · exact .inl (.inr hfn)
    · exact .inr hfn
  · -- the frame of the call is the latest active one
    show Nested (Stack.scopes _) _ _
    rw [hscopes', hactive, hcurrent]
    show Nested [] (s.arena.push f.captured).2 (s.arena.push f.captured).1.active
    rw [Arena.active_push]
    show Nested [] (((s.arena.push f.captured).2 :: s.arena.active).headD Arena.global) _
    exact .base
  · exact fun fn hfn => hfn.1

theorem Body.after (h : Body since f k s c d)
    (hbusy : ∀ m < n, ¬ (c.after m).IsOver (returning f k s)) :
    (c.after n).Rebased (returning f k s) (holding (f :: Stack.functions k)) (d.after n) :=
  h.rebased.after (functions_holding _) hbusy

theorem Body.busy (h : Body since f k s c d)
    (hbusy : ∀ m < n, ¬ (c.after m).IsOver (returning f k s)) :
    ∀ m < n, ¬ (d.after m).IsOver (holding (f :: Stack.functions k)) := by
  intro m hm hover
  have hbefore := h.after fun i hi => hbusy i (Nat.lt_trans hi hm)
  exact hbusy m hm (hbefore.isOver_iff.1 hover)

/-- The body leaves the scopes it has entered. -/
theorem Body.after_over (h : Body since f k s c d)
    (hbusy : ∀ m < n, ¬ (c.after m).IsOver (returning f k s))
    (hover : (c.after n).IsOver (returning f k s)) :
    (c.after n).Rebased (returning f k s) (holding (f :: Stack.functions k)) (d.after n) ∧
      (d.after n).session.arena.active = (s.arena.push f.captured).2 :: s.arena.active := by
  refine ⟨h.after hbusy, ?_⟩
  obtain ⟨top, -, hstack⟩ := h.rebased.stack
  have hscopes : Stack.scopes top = [] := by
    have hnone := h.scopes
    rw [hstack, scopes_append] at hnone
    exact (List.append_eq_nil_iff.1 hnone).1
  have hstanding :=
    standing_after n hstack (h.busy hbusy) ((h.after hbusy).isOver_iff.2 hover).1
  rw [hscopes] at hstanding
  exact (congrArg Standing.active hstanding).trans h.active

/-! ## The way back -/

/-- The step from `c` to `d` goes back to `x`, where `k` remains to be done, and leaves no handle
dangling. -/
structure Configuration.GoesBack (since : Nat) (k : Stack) (x : Handle) (c d : Configuration) :
    Prop where
  ended : d.IsOver k
  control : d.control = c.control.returned
  arena : c.session.arena.GoesBack x d.session.arena
  sound : d.session.arena.Sound since fun fn => fn ∈ d.control.functions
  sink : d.session.sink = c.session.sink
  depth : d.session.depth = c.session.depth - 1
  maxDepth : d.session.maxDepth = c.session.maxDepth

/-- When its body is over, a call goes back to the scope it was made from. -/
theorem CallSite.returns (h : CallSite since f args k s) (hbody : Body since f k s c d)
    (hbusy : ∀ m < n, ¬ (c.after m).IsOver (returning f k s))
    (hover : (c.after n).IsOver (returning f k s)) :
    (c.after n).GoesBack since k s.arena.current (c.after n).step := by
  obtain ⟨hrebased, hactive⟩ := hbody.after_over hbusy hover
  have harena := (hbody.sound.after n).arena
  rw [hrebased.session] at harena hactive
  generalize c.after n = c at hover hrebased harena hactive ⊢
  -- the frame from which the call was made is there still, and is not that of the call
  have hcaller : c.session.arena.Live s.arena.current ∧
      s.arena.current ≠ (s.arena.push f.captured).2 := by
    rcases h.current with hglobal | hmem
    · rw [hglobal]
      refine ⟨harena.live_toplevel, fun heq => harena.inner ?_⟩
      rw [hactive, heq]
      exact List.mem_cons_self
    · refine ⟨harena.active _ (hactive ▸ List.mem_cons_of_mem _ hmem), fun heq => ?_⟩
      exact (List.nodup_cons.1 (hactive ▸ harena.distinct)).1 (heq ▸ hmem)
  have hheld : c.session.arena.Sound since fun fn => fn ∈ c.control.functions :=
    harena.mono fun fn hfn => .inl (.inl (.inl (hrebased.control ▸ hfn)))
  have hleave {outside : List Closure} (hout : ∀ fn ∈ c.control.functions, fn ∈ outside) :
      (leaveFrame c.session.arena (s.arena.push f.captured).2 s.arena.current outside).Sound since
        fun fn => fn ∈ c.control.functions :=
    (hheld.enter hcaller.1).release hactive hcaller.2 hout
  obtain ⟨control, stack, t⟩ := c
  obtain ⟨hstack, hdone⟩ := hover
  obtain rfl : stack = _ := hstack
  rcases hdone with ⟨o, hdone⟩ | ⟨fault, hdone⟩
  · obtain rfl : control = .done o := hdone
    exact
      { ended := ⟨rfl, .inl ⟨_, rfl⟩⟩
        control := rfl
        arena := Arena.goesBack_release ..
        sound := (hleave fun fn hfn => List.mem_append_left _ hfn).mono fun fn hfn =>
          .inl (Outcome.mem_functions_of_asValue hfn)
        sink := rfl
        depth := rfl
        maxDepth := rfl }
  · obtain rfl : control = .failed fault := hdone
    exact
      { ended := ⟨rfl, .inr ⟨_, rfl⟩⟩
        control := rfl
        arena := Arena.goesBack_release ..
        sound := hleave (List.forall_mem_nil _)
        sink := rfl
        depth := rfl
        maxDepth := rfl }

/-- Both calls go back. What they end with, and the frames that are left in both, are the same. -/
theorem Configuration.Mirrors.returned {c' d' : Configuration} {V : Set Handle}
    {φ : Handle → Handle} {k₁ k₂ : Stack} {x y : Handle} (h : c.Mirrors k₁ k₂ V φ d)
    (hc : c.GoesBack since k x c') (hd : d.GoesBack since' k' y d') :
    d'.control = c'.control.rename φ ∧
      (∀ fn ∈ c'.control.functions,
        fn.captured ∈ Arena.remaining V φ c'.session.arena d'.session.arena) ∧
      c'.session.Corresponds (Arena.remaining V φ c'.session.arena d'.session.arena) φ d'.session ∧
      c.session.arena.Later V φ d.session.arena
        (Arena.remaining V φ c'.session.arena d'.session.arena) φ c'.session.arena
        d'.session.arena := by
  obtain ⟨harena, hlater⟩ := h.session.arena.left hc.arena hd.arena hc.sound.closed hd.sound.closed
  have hcontrol : d'.control = c'.control.rename φ := by
    rw [hd.control, h.control, hc.control, Control.returned_rename]
  refine ⟨hcontrol, fun fn hfn => ⟨?_, ?_, ?_⟩, ⟨harena, ?_, ?_, ?_⟩, hlater⟩
  · rw [hc.control] at hfn
    exact h.carried fn (Control.mem_functions_of_returned hfn)
  · exact (hc.sound.carries fn (.inl hfn)).live
  · refine (hd.sound.carries (fn.rename φ) (.inl ?_)).live
    rw [hcontrol, Control.functions_rename]
    exact List.mem_map_of_mem hfn
  · rw [hc.sink, hd.sink, h.session.sink]
  · rw [hc.depth, hd.depth, h.session.depth]
  · rw [hc.maxDepth, hd.maxDepth, h.session.maxDepth]

/-! ## Two calls -/

/-- Machines that do the same do so above other stacks as well. -/
theorem Configuration.Mirrors.onto {c' d' : Configuration} {V : Set Handle} {φ : Handle → Handle}
    {k₁ k₂ l₁ l₂ : Stack} (h : c.Mirrors k₁ k₂ V φ d) (hc : c.Rebased k₁ l₁ c')
    (hd : d.Rebased k₂ l₂ d') : c'.Mirrors l₁ l₂ V φ d' := by
  obtain ⟨hcontrol, hcarried, ⟨top, hstack, hstack', htop⟩, hsession⟩ := h
  obtain ⟨above, habove, hc'⟩ := hc.stack
  obtain ⟨above', habove', hd'⟩ := hd.stack
  obtain rfl : top = above := List.append_cancel_right (hstack.symm.trans habove)
  obtain rfl : Stack.rename φ top = above' := List.append_cancel_right (hstack'.symm.trans habove')
  refine ⟨?_, ?_, ⟨top, hc', hd', htop⟩, ?_⟩
  · rw [hd.control, hc.control, hcontrol]
  · rw [hc.control]
    exact hcarried
  · rw [hc.session, hd.session]
    exact hsession

theorem Configuration.Lasts.congr (h : c.Lasts n x)
    (hsame : ∀ m ≤ n, (d.after m).session = (c.after m).session) : d.Lasts n x := by
  intro m hm
  rw [hsame m hm]
  exact h m hm

/-- Two calls that look the same fail at once in the same way, or both enter their function. -/
theorem SameSight.begins (h : SameSight f args s t) (hs : CallSite since f args k s)
    (ht : CallSite since' f args k' t) (pos : Position) :
    (∃ d, call (.function f) args pos k s = ⟨.failed d, k, s⟩ ∧
      call (.function f) args pos k' t = ⟨.failed d, k', t⟩) ∨
    ∃ W ψ, Mirrors (returning f k s) (returning f k' t) W ψ (call (.function f) args pos k s)
        (call (.function f) args pos k' t) ∧
      s.arena.Later (s.arena.seen f args) id t.arena W ψ
        (call (.function f) args pos k s).session.arena
        (call (.function f) args pos k' t).session.arena := by
  have hf : f.captured ∈ s.arena.seen f args := captured_mem_seen _ List.mem_cons_self
  have hargs : ∀ v ∈ args, ∀ fn ∈ v.functions, fn.captured ∈ s.arena.seen f args :=
    fun v hv fn hfn =>
      captured_mem_seen _ (List.mem_cons_of_mem _ (List.mem_flatMap.2 ⟨v, hv, hfn⟩))
  have hsame : args.map (Value.rename id) = args :=
    (List.map_congr_left fun v _ => Value.rename_id v).trans (List.map_id' args)
  have hcall := mirrors_call (h.corresponds hs) hs.arena.tidy ht.arena.tidy hf hargs pos k k'
  rw [hsame] at hcall
  rcases hcall with hfails | ⟨W, ψ, -, -, -, hmirrors, hlater⟩
  · exact .inl hfails
  · exact .inr ⟨W, ψ, hmirrors, hlater⟩

/-- While the body of one call is run, the other call runs the same body. -/
theorem Body.runs {c' d' : Configuration} {W : Set Handle} {ψ : Handle → Handle}
    (hc : Body since f k s c c') (hd : Body since' f k' t d d')
    (hmirrors : c.Mirrors (returning f k s) (returning f k' t) W ψ d)
    (hlater : s.arena.Later (s.arena.seen f args) id t.arena W ψ c.session.arena d.session.arena)
    (hbusy : ∀ m < n, ¬ (c.after m).IsOver (returning f k s)) :
    (∀ m < n, ¬ (d.after m).IsOver (returning f k' t)) ∧
    ∃ W' ψ', (c.after n).Mirrors (returning f k s) (returning f k' t) W' ψ' (d.after n) ∧
      Arena.Traces (s.arena.seen f args) (fun x => s.arena.Live x ∧ c.Lasts n x)
        (fun x => t.arena.Live x ∧ d.Lasts n x) s.arena t.arena W' ψ' (c.after n).session.arena
        (d.after n).session.arena := by
  -- no handle dangles in `c'` and `d'`, so these do the same at every moment
  have hstart := hmirrors.onto hc.rebased hd.rebased
  have hrefl : Arena.Traces (s.arena.seen f args) s.arena.Live t.arena.Live s.arena t.arena
      (s.arena.seen f args) id s.arena t.arena := Arena.traces_refl
  have htraces : Arena.Traces (s.arena.seen f args)
      (fun x => s.arena.Live x ∧ c'.session.arena.Live x)
      (fun x => t.arena.Live x ∧ d'.session.arena.Live x) s.arena t.arena W ψ c'.session.arena
      d'.session.arena := by
    rw [hc.rebased.session, hd.rebased.session]
    exact hrefl.later hlater (fun x hx => ⟨hx.1, hx⟩) fun x hx => ⟨hx.1, hx⟩
  have hc' (m : Nat) (hm : m ≤ n) := hc.after fun i hi => hbusy i (Nat.lt_of_lt_of_le hi hm)
  have hbusy' := hc.busy hbusy
  have hrun (m : Nat) (hm : m ≤ n) := hstart.after hc.sound hd.sound htraces
    fun i hi => hbusy' i (Nat.lt_of_lt_of_le hi hm)
  have hbusyd : ∀ m < n, ¬ (d'.after m).IsOver (holding (f :: Stack.functions k')) := by
    intro m hm hend
    obtain ⟨W', ψ', hsame, -⟩ := hrun m (Nat.le_of_lt hm)
    exact hbusy' m hm (hsame.isOver_iff.1 hend)
  have hd' (m : Nat) (hm : m ≤ n) : (d'.after m).Rebased (holding (f :: Stack.functions k'))
      (returning f k' t) (d.after m) :=
    hd.rebased.symm.after (functions_holding _).symm fun i hi =>
      hbusyd i (Nat.lt_of_lt_of_le hi hm)
  refine ⟨fun m hm hend => hbusyd m hm ((hd' m (Nat.le_of_lt hm)).isOver_iff.1 hend), ?_⟩
  -- what these do, `c` and `d` do above their own stacks
  obtain ⟨W', ψ', hsame, htrace⟩ := hrun n (Nat.le_refl n)
  refine ⟨W', ψ', hsame.onto (hc' n (Nat.le_refl n)).symm (hd' n (Nat.le_refl n)), ?_⟩
  rw [← (hc' n (Nat.le_refl n)).session, (hd' n (Nat.le_refl n)).session]
  refine htrace.mono (fun x hx => ?_) fun x hx => ?_
  · have hlasts : c'.Lasts n x := hx.2.congr fun m hm => (hc' m hm).session
    exact ⟨⟨hx.1, hlasts 0 (Nat.zero_le n)⟩, hlasts⟩
  · have hlasts : d'.Lasts n x := hx.2.congr fun m hm => ((hd' m hm).session).symm
    exact ⟨⟨hx.1, hlasts 0 (Nat.zero_le n)⟩, hlasts⟩

/-- After `n` steps, the calls that begin as `c` and `d`, made in the sessions `s` and `t`, are at
the same point. Both control and frames are the same up to names: the frames in `W` are found in
both under the names that `φ` gives them, and refer to each other only. Frames that the calls can
see are among them as long as they are there, and keep their names, which are given to no others;
frames that the calls cannot see are as they were, as long as they are there. -/
structure SameMoment (f : Closure) (args : List Value) (s t : Session) (n : Nat)
    (c d : Configuration) (W : Set Handle) (φ : Handle → Handle) : Prop where
  control : (d.after n).control = (c.after n).control.rename φ
  carried : ∀ fn ∈ (c.after n).control.functions, fn.captured ∈ W
  session : (c.after n).session.Corresponds W φ (d.after n).session
  traces : Arena.Traces (s.arena.seen f args) (fun x => s.arena.Live x ∧ c.Lasts n x)
    (fun x => t.arena.Live x ∧ d.Lasts n x) s.arena t.arena W φ (c.after n).session.arena
    (d.after n).session.arena

/-- **Scoping is lexical.** A function is called with the same arguments in two sessions that look
the same to the call. They may differ in the scope from which it is called, in all frames that the
call cannot see, and in what remains to be done afterwards. Then at every moment of the call the
output is the same in both; one call ends, with a value or a failure, when the other does; and up to
the names of frames that are newer than the call, they end with the same and change the frames that
they can see in the same way. Frames that they cannot see are left as they are. -/
theorem scoping_is_lexical (hs : CallSite since f args k s) (ht : CallSite since' f args k' t)
    (h : SameSight f args s t) (pos : Position) (n : Nat)
    (hbusy : ∀ m < n, ¬ ((call (.function f) args pos k s).after m).IsOver k) :
    (((call (.function f) args pos k' t).after n).IsOver k' ↔
      ((call (.function f) args pos k s).after n).IsOver k) ∧
    ∃ W φ, SameMoment f args s t n (call (.function f) args pos k s)
      (call (.function f) args pos k' t) W φ := by
  rcases h.begins hs ht pos with ⟨d, hcall, hcall'⟩ | ⟨W, ψ, hmirrors, hlater⟩
  · rw [hcall] at hbusy
    rw [hcall, hcall']
    -- both have failed at once
    obtain rfl : n = 0 := by
      refine Nat.eq_zero_of_not_pos fun hpos => hbusy 0 hpos ⟨rfl, .inr ⟨d, rfl⟩⟩
    refine ⟨iff_of_true ⟨rfl, .inr ⟨d, rfl⟩⟩ ⟨rfl, .inr ⟨d, rfl⟩⟩, s.arena.seen f args, id, ?_⟩
    exact ⟨rfl, List.forall_mem_nil _, h.corresponds hs, Arena.traces_refl⟩
  · obtain ⟨top, hstack, hstack', -⟩ := hmirrors.stack
    obtain ⟨c', hc⟩ := hs.body ⟨top, hstack⟩
    obtain ⟨d', hd⟩ := ht.body ⟨_, hstack'⟩
    generalize call (.function f) args pos k s = c at *
    generalize call (.function f) args pos k' t = d at *
    by_cases hbody : ∀ m < n, ¬ (c.after m).IsOver (returning f k s)
    · -- the body is not over yet, or has just ended
      obtain ⟨-, W', ψ', hsame, htraces⟩ := hc.runs hd hmirrors hlater hbody
      obtain ⟨top, hstack, hstack', -⟩ := hsame.stack
      have hc' : ¬ (c.after n).IsOver k := fun hover =>
        above_returning_ne top f k s (hstack.symm.trans hover.1)
      have hd' : ¬ (d.after n).IsOver k' := fun hover =>
        above_returning_ne _ f k' t (hstack'.symm.trans hover.1)
      exact ⟨iff_of_false hd' hc', W', ψ', hsame.control, hsame.carried, hsame.session.corresponds,
        htraces⟩
    · -- the body has ended before, so this is the step that leads back
      obtain ⟨m, hm, hover, hfirst⟩ := exists_first_over hbody
      obtain ⟨hbusyd, W', ψ', hsame, htraces⟩ := hc.runs hd hmirrors hlater hfirst
      have hback := hs.returns hc hfirst hover
      have hback' := ht.returns hd hbusyd (hsame.isOver_iff.2 hover)
      rw [← after_succ_eq_step] at hback hback'
      obtain rfl : n = m + 1 :=
        Nat.le_antisymm (Nat.le_of_not_lt fun hlt => hbusy _ hlt hback.ended) hm
      obtain ⟨hcontrol, hcarried, hsession, hleft⟩ := hsame.returned hback hback'
      refine ⟨iff_of_true hback'.ended hback.ended, _, ψ', hcontrol, hcarried, hsession,
        htraces.later hleft (fun x hx => ?_) fun x hx => ?_⟩
      · exact ⟨⟨hx.1, hx.2.of_succ.1⟩, hx.2.of_succ.2⟩
      · exact ⟨⟨hx.1, hx.2.of_succ.1⟩, hx.2.of_succ.2⟩

/-- A function prints a variable that is shadowed in the block from which it is called. -/
def shadowing : Program :=
  [.declare "x" (some (.literal (.string "outer") .start)) .start,
    .function ⟨"f", [], [.print (.ident "x" .start) .start], .start⟩,
    .block
      [.declare "x" (some (.literal (.string "inner") .start)) .start,
        .expression (.call (.ident "f" .start) [] .start)]]

/-- Called from the block, and called from the top level after the variable in the block was given
another value, the function does the same. -/
theorem scoping_is_lexical_shadowing :
    let c := Configuration.after 16 ⟨.done .normal, [.sequence shadowing],
      { Session.new (.new none) with pending := .normal }⟩
    let s := c.session
    let t := { s with arena := (s.arena.put ⟨1, 0⟩ "x" (.string "other")).enter Arena.global }
    let f : Closure := ⟨0, ⟨"f", [], [.print (.ident "x" .start) .start], .start⟩, Arena.global⟩
    let k : Stack :=
      [.discard, .sequence [], .leaveBlock ⟨1, 0⟩ Arena.global, .sequence []]
    CallSite 0 f [] k s ∧ CallSite 0 f [] k t ∧ SameSight f [] s t ∧
      (∀ m < 6, ¬ ((call (.function f) [] .start k s).after m).IsOver k) ∧
      (((call (.function f) [] .start k t).after 6).IsOver k ↔
        ((call (.function f) [] .start k s).after 6).IsOver k) ∧
      ∃ W φ, SameMoment f [] s t 6 (call (.function f) [] .start k s)
        (call (.function f) [] .start k t) W φ := by
  intro c s t f k
  have hmoment : Moment 0 c :=
    ⟨.new (.new none), .interpret shadowing, _, 16, .new _, rfl, rfl⟩
  have hattempt : c.attempt? = some (.call (.function f) [] .start, k) := rfl
  have hs : CallSite 0 f [] k s := callSite_of_attempt hmoment hattempt
  have ht : CallSite 0 f [] k t :=
    (hs.put (v := .string "other") (List.forall_mem_nil _) ⟨1, 0⟩ "x").enter (.inl rfl)
  have hseen : ∀ x ∈ s.arena.seen f [], x = Arena.global := by
    have hlinks : (s.arena.frame? Arena.global).map Frame.links = some [Arena.global] := by
      decide +kernel
    refine fun x hx => Arena.Reaches.least (s := (· = Arena.global))
      (fun y hy => List.mem_singleton.1 hy) ?_ hx
    rintro _ g rfl hg y hy
    rw [hg] at hlinks
    rw [Option.some.inj hlinks] at hy
    exact List.mem_singleton.1 hy
  have h : SameSight f [] s t := by
    refine ⟨fun x hx => ?_, rfl, rfl, rfl, rfl, rfl⟩
    rw [hseen x hx]
    have hother : Arena.global ≠ ⟨1, 0⟩ := by decide
    show (s.arena.put ⟨1, 0⟩ "x" (.string "other")).frame? Arena.global = _
    rw [Arena.frame?_put, if_neg hother]
  have hbusy : ∀ m < 6, ¬ ((call (.function f) [] .start k s).after m).IsOver k := by
    have hlength : ∀ m < 6, ((call (.function f) [] .start k s).after m).stack.length ≠ 4 := by
      decide +kernel
    exact fun m hm hover => hlength m hm (by rw [hover.1]; rfl)
  exact ⟨hs, ht, h, hbusy, scoping_is_lexical hs ht h .start 6 hbusy⟩

end Script
