import Script.Proofs.Arena.Skipping
import Script.Proofs.Machine.Enclosing
import Script.Proofs.Machine.Mirroring

/-!
# Machines that differ in frames that bind nothing

A block that declares nothing in its own scope does nothing to the names around it. If the machine
is inside such blocks, then whatever it does, it would do without them. So two machines can do the
same even if one of them is inside blocks of which the other knows nothing.

- `Configuration.skip`: a machine with some frames skipped.
- `Configuration.Skipped`, `skipped_step`: a step is the same if frames are skipped, as long as
  nothing is declared in them and no scope is left.
- `Configuration.MirrorsThrough`: two machines do the same above two stacks, if frames of the second
  are skipped.
- `MirrorsThrough.step`, `leave_through`, `enter_through`: one step of both; the second machine
  leaves or enters a frame that is skipped.
-/

namespace Script

/-! ## Machines with frames skipped -/

/-- The part of the stack, with each scope entered from the frame that takes the place of its
caller. -/
def Continuation.skip (ρ : Handle → Handle) : Continuation → Continuation
  | .leaveBlock frame caller => .leaveBlock frame (ρ caller)
  | .leaveCall f frame caller => .leaveCall f frame (ρ caller)
  | p => p

/-- The stack with frames skipped. -/
def Stack.skip (ρ : Handle → Handle) (k : Stack) : Stack := k.map (Continuation.skip ρ)

/-- The session with frames skipped. -/
def Session.skip (ρ : Handle → Handle) (s : Session) : Session :=
  { s with arena := s.arena.skip ρ }

/-- The machine with frames skipped. -/
def Configuration.skip (ρ : Handle → Handle) (c : Configuration) : Configuration :=
  ⟨c.control, Stack.skip ρ c.stack, c.session.skip ρ⟩

variable {φ ψ ρ σ : Handle → Handle} {V W : Set Handle} {s t u : Session} {k k' top : Stack}
  {p : Continuation} {o : Outcome} {name : String} {v : Value} {pos : Position}
  {args : List Value}

theorem Continuation.functions_skip (p : Continuation) : (p.skip ρ).functions = p.functions := by
  cases p <;> rfl

theorem Continuation.scope?_skip (p : Continuation) :
    (p.skip ρ).scope? = p.scope?.map fun scope => { scope with caller := ρ scope.caller } := by
  cases p <;> rfl

/-- Only the frames from which scopes were entered matter to what takes their place. -/
theorem Continuation.skip_congr
    (h : ∀ scope, p.scope? = some scope → σ scope.caller = ρ scope.caller) :
    p.skip σ = p.skip ρ := by
  cases p with
  | leaveBlock frame caller => exact congrArg (Continuation.leaveBlock frame) (h _ rfl)
  | leaveCall f frame caller => exact congrArg (Continuation.leaveCall f frame) (h _ rfl)
  | _ => rfl

theorem Continuation.skip_of_scope (h : p.scope? = none) : p.skip ρ = p := by
  cases p <;> first | rfl | cases h

theorem Continuation.skip_eq_leaveBlock {frame caller : Handle}
    (h : p.skip ρ = .leaveBlock frame caller) : ∃ x, p = .leaveBlock frame x ∧ ρ x = caller := by
  cases p <;> cases h
  exact ⟨_, rfl, rfl⟩

theorem Continuation.skip_eq_leaveCall {f : Closure} {frame caller : Handle}
    (h : p.skip ρ = .leaveCall f frame caller) : ∃ x, p = .leaveCall f frame x ∧ ρ x = caller := by
  cases p <;> cases h
  exact ⟨_, rfl, rfl⟩

namespace Stack

theorem skip_append (k k' : Stack) : skip ρ (k ++ k') = skip ρ k ++ skip ρ k' := List.map_append

theorem functions_skip (k : Stack) : functions (skip ρ k) = functions k := by
  unfold functions skip
  rw [List.flatMap_map]
  exact List.flatMap_congr fun p _ => p.functions_skip

theorem scopes_skip (k : Stack) :
    scopes (skip ρ k) = (scopes k).map fun scope => { scope with caller := ρ scope.caller } := by
  unfold scopes skip
  rw [List.filterMap_map, List.map_filterMap]
  exact List.filterMap_congr fun p _ => p.scope?_skip

theorem skip_congr (h : ∀ scope ∈ scopes k, σ scope.caller = ρ scope.caller) :
    skip σ k = skip ρ k :=
  List.map_congr_left fun p hp => Continuation.skip_congr fun scope hscope =>
    h scope (List.mem_filterMap.2 ⟨p, hp, hscope⟩)

end Stack

/-! ## Steps that leave no scope -/

/-- Two sessions are the same, apart from frames that are skipped. -/
structure Session.Agrees (ρ : Handle → Handle) (s t : Session) : Prop where
  arena : s.arena.Agrees ρ t.arena
  sink : t.sink = s.sink
  depth : t.depth = s.depth
  maxDepth : t.maxDepth = s.maxDepth

theorem Session.Agrees.refl (s : Session) : s.Agrees ρ s := ⟨.refl _, rfl, rfl, rfl⟩

namespace Configuration

/-- A machine comes to `c`, and it comes to `d` if frames are skipped. -/
structure Skipped (ρ : Handle → Handle) (c d : Configuration) : Prop where
  control : d.control = c.control
  stack : d.stack = Stack.skip ρ c.stack
  session : d.session.Agrees ρ (c.session.skip ρ)
  skips : c.session.arena.Skips ρ

theorem skipped_go (h : t.arena.Skips ρ) (control : Control) (k : Stack) :
    Skipped ρ ⟨control, k, t⟩ ⟨control, Stack.skip ρ k, t.skip ρ⟩ :=
  ⟨rfl, rfl, .refl _, h⟩

theorem skipped_yield (h : t.arena.Skips ρ) (r : Except Fault Value) :
    Skipped ρ (yield r pos k t) (yield r pos (Stack.skip ρ k) (t.skip ρ)) := by
  cases r with
  | ok v => exact skipped_go h _ k
  | error fault => exact skipped_go h _ k

/-- Nothing is declared in a frame that is skipped. -/
theorem skipped_defineAt (h : t.arena.Skips ρ) (hu : u.Agrees ρ (t.skip ρ))
    (hcurrent : ρ t.arena.current = t.arena.current) :
    Skipped ρ (defineAt name v pos k t) (defineAt name v pos (Stack.skip ρ k) u) := by
  have hsame : ρ u.arena.current = u.arena.current := by
    rw [← hu.arena.current]
    show ρ (ρ t.arena.current) = ρ t.arena.current
    rw [hcurrent, hcurrent]
  obtain ⟨hskip, hskips⟩ := h.define hcurrent name v
  obtain ⟨harena, hfault⟩ := hu.arena.define hsame name v
  rw [show (t.skip ρ).arena = t.arena.skip ρ from rfl, hskip] at harena hfault
  unfold defineAt
  rcases hd : t.arena.define name v with ⟨a, fault⟩
  rcases hd' : u.arena.define name v with ⟨b, fault'⟩
  rw [hd] at hskips harena hfault
  rw [hd'] at harena hfault
  simp only at hskips harena hfault
  subst hfault
  cases fault with
  | none => exact ⟨rfl, rfl, ⟨harena, hu.sink, hu.depth, hu.maxDepth⟩, hskips⟩
  | some fault => exact ⟨rfl, rfl, ⟨harena, hu.sink, hu.depth, hu.maxDepth⟩, hskips⟩

theorem skipped_assignAt (h : t.arena.Skips ρ) (hground : t.arena.Grounded) :
    Skipped ρ (assignAt name v pos k t) (assignAt name v pos (Stack.skip ρ k) (t.skip ρ)) := by
  obtain ⟨hskip, hskips⟩ := h.assign hground name v
  unfold assignAt
  rw [show (t.skip ρ).arena = t.arena.skip ρ from rfl, hskip]
  rcases hd : t.arena.assign name v with ⟨a, fault⟩
  rw [hd] at hskips
  cases fault with
  | none => exact ⟨rfl, rfl, .refl _, hskips⟩
  | some fault => exact ⟨rfl, rfl, .refl _, hskips⟩

theorem skipped_printAt (h : t.arena.Skips ρ) :
    Skipped ρ (printAt v pos k t) (printAt v pos (Stack.skip ρ k) (t.skip ρ)) := by
  unfold printAt
  rw [show (t.skip ρ).sink = t.sink from rfl]
  rcases t.sink.writeLine v.text with ⟨sink, refused⟩
  cases refused with
  | none => exact ⟨rfl, rfl, .refl _, h⟩
  | some reason => exact ⟨rfl, rfl, .refl _, h⟩

/-- A new frame is not skipped, and takes the place of its parent in a frame that is. -/
theorem skips_pushed {a : Arena} (h : a.Skips ρ) (ha : a.Tidy) (p : Handle) :
    ρ (a.push p).2 = (a.push p).2 ∧
      ((a.skip ρ).push (ρ p)).1.enter ((a.skip ρ).push (ρ p)).2 =
        ((a.push p).1.enter (a.push p).2).skip ρ ∧
      ((a.push p).1.enter (a.push p).2).Skips ρ := by
  have hnew : ρ (a.push p).2 = (a.push p).2 :=
    h.eq_of_not_live (Arena.not_live_iff.2 (ha.frame?_pushed p))
  refine ⟨hnew, ?_, (h.push ha p).enter _⟩
  rw [Arena.push_skip]
  show _ = { (a.push p).1.skip ρ with current := ρ (a.push p).2 }
  rw [hnew]
  rfl

theorem skipped_enterBlock (h : t.arena.Skips ρ) (ht : t.arena.Tidy) (body : List Stmt) :
    Skipped ρ (enterBlock body k t) (enterBlock body (Stack.skip ρ k) (t.skip ρ)) := by
  obtain ⟨-, henter, hskips⟩ := skips_pushed h ht t.arena.current
  refine ⟨rfl, ?_, ⟨?_, rfl, rfl, rfl⟩, hskips⟩
  · show Continuation.sequence body ::
        .leaveBlock ((t.arena.skip ρ).push (ρ t.arena.current)).2 (ρ t.arena.current) ::
          Stack.skip ρ k = _
    rw [Arena.push_skip]
    rfl
  · show Arena.Agrees ρ (((t.arena.skip ρ).push (ρ t.arena.current)).1.enter
      ((t.arena.skip ρ).push (ρ t.arena.current)).2) _
    rw [henter]
    exact .refl _

/-- Parameters are bound in a frame that is not skipped. -/
theorem bindParams_skip {a : Arena} (h : a.Skips ρ) (hcurrent : ρ a.current = a.current)
    (params : List Param) (args : List Value) :
    bindParams (a.skip ρ) params args =
        ((bindParams a params args).1.skip ρ, (bindParams a params args).2) ∧
      (bindParams a params args).1.Skips ρ := by
  induction params generalizing a args with
  | nil => exact ⟨rfl, h⟩
  | cons p ps ih =>
    cases args with
    | nil => exact ⟨rfl, h⟩
    | cons v vs =>
      obtain ⟨hskip, hskips⟩ := h.define hcurrent p.name v
      have hsame := Arena.current_define a p.name v
      unfold bindParams
      rw [hskip]
      rcases hd : a.define p.name v with ⟨b, fault⟩
      rw [hd] at hskips hsame
      cases fault with
      | none => exact ih hskips (by rw [hsame, hcurrent]) vs
      | some fault => exact ⟨rfl, hskips⟩

/-- The function that is called has captured a frame that is not skipped. -/
theorem skipped_call {callee : Value} (h : t.arena.Skips ρ) (ht : t.arena.Tidy)
    (hcallee : ∀ fn ∈ callee.functions, ρ fn.captured = fn.captured) :
    Skipped ρ (call callee args pos k t) (call callee args pos (Stack.skip ρ k) (t.skip ρ)) := by
  cases callee with
  | function f =>
    obtain ⟨hnew, henter, hskips⟩ := skips_pushed h ht f.captured
    obtain ⟨hbind, hbound⟩ := bindParams_skip hskips hnew f.decl.params args
    have hframe : ((t.arena.skip ρ).push (ρ f.captured)).2 = (t.arena.push f.captured).2 := by
      rw [Arena.push_skip]
    rw [← henter] at hbind
    rw [hcallee f List.mem_cons_self] at hframe hbind
    rcases hb : bindParams ((t.arena.push f.captured).1.enter (t.arena.push f.captured).2)
      f.decl.params args with ⟨a, failure⟩
    rw [hb] at hbind hbound
    rw [hframe] at hbind
    unfold call
    simp only [Session.skip, hb, hbind, hframe]
    split
    · exact skipped_go h _ k
    split
    · exact skipped_go h _ k
    cases failure with
    | none => exact ⟨rfl, rfl, .refl _, hbound⟩
    | some d => exact ⟨rfl, rfl, .refl _, hbound⟩
  | _ => exact skipped_go h _ k

theorem skipped_nextArgument {callee : Value} {before : List Value} {after : List Expr}
    (h : t.arena.Skips ρ) (ht : t.arena.Tidy)
    (hcallee : ∀ fn ∈ callee.functions, ρ fn.captured = fn.captured) :
    Skipped ρ (nextArgument callee before after pos k t)
      (nextArgument callee before after pos (Stack.skip ρ k) (t.skip ρ)) := by
  cases after with
  | cons e after => exact skipped_go h _ (_ :: k)
  | nil => exact skipped_call h ht hcallee

theorem skipped_evaluate (h : t.arena.Skips ρ) (hground : t.arena.Grounded) (e : Expr) :
    Skipped ρ (evaluate e k t) (evaluate e (Stack.skip ρ k) (t.skip ρ)) := by
  cases e with
  | literal l pos => exact skipped_go h _ k
  | group inner pos => exact skipped_go h _ k
  | ident name pos =>
    unfold evaluate
    simp only [Session.skip, h.get? hground]
    cases t.arena.get? name with
    | none => exact skipped_go h _ k
    | some v => exact skipped_go h _ k
  | _ => exact skipped_go h _ (_ :: k)

theorem skipped_execute {st : Stmt} {since : Nat} {held : Closure → Prop} (h : t.arena.Skips ρ)
    (ht : t.arena.Sound since held)
    (hdeclares : st.Declares → ρ t.arena.current = t.arena.current) :
    Skipped ρ (execute st k t) (execute st (Stack.skip ρ k) (t.skip ρ)) := by
  cases st with
  | expression e => exact skipped_go h _ (_ :: k)
  | print e pos => exact skipped_go h _ (_ :: k)
  | declare name initial pos =>
    cases initial with
    | none => exact skipped_defineAt h (.refl _) (hdeclares .declare)
    | some e => exact skipped_go h _ (_ :: k)
  | block body => exact skipped_enterBlock h ht.tidy body
  | branch condition whenTrue whenFalse pos => exact skipped_go h _ (_ :: k)
  | loop condition body increment pos => exact skipped_go h _ (_ :: k)
  | exitLoop pos => exact skipped_go h _ k
  | nextIteration pos => exact skipped_go h _ k
  | function decl =>
    have hcurrent := hdeclares .function
    obtain ⟨hagrees, hskips⟩ := h.closure ht decl
    -- the new function has captured the innermost scope, which is not skipped
    have hfunction : ((t.arena.skip ρ).closure decl).2 = (t.arena.closure decl).2 := by
      rw [Arena.closure_snd, Arena.closure_snd]
      show Closure.mk _ _ (ρ t.arena.current) = _
      rw [hcurrent]
      rfl
    have hcurrent' : ρ (t.arena.closure decl).1.current = (t.arena.closure decl).1.current := by
      rw [Arena.current_closure, hcurrent]
    show Skipped ρ (defineAt decl.name _ decl.pos k _)
      (defineAt decl.name (.function ((t.arena.skip ρ).closure decl).2) decl.pos _ _)
    rw [hfunction]
    exact skipped_defineAt hskips ⟨hagrees, rfl, rfl, rfl⟩ hcurrent'
  | giveBack value pos =>
    cases value with
    | none => exact skipped_go h _ k
    | some e => exact skipped_go h _ (_ :: k)

theorem skipped_resume (h : t.arena.Skips ρ) (ht : t.arena.Tidy) (hground : t.arena.Grounded)
    (hscope : p.scope? = none)
    (hdeclares : ∀ name pos, p = .define name pos → ρ t.arena.current = t.arena.current)
    (hvalue : ∀ fn ∈ o.functions, ρ fn.captured = fn.captured)
    (hheld : ∀ fn ∈ p.functions, ρ fn.captured = fn.captured) :
    Skipped ρ (resume p o k t) (resume p o (Stack.skip ρ k) (t.skip ρ)) := by
  cases p with
  | assign name pos => exact skipped_assignAt h hground
  | unary op pos => exact skipped_yield h _
  | binaryLeft op right pos => exact skipped_go h _ (_ :: k)
  | binaryRight op left pos => exact skipped_yield h _
  | logicalLeft op right =>
    unfold resume
    simp only
    split
    · exact skipped_go h _ k
    · exact skipped_go h _ (_ :: k)
  | logicalRight left => exact skipped_go h _ k
  | callee args pos =>
    exact skipped_nextArgument h ht fun fn hfn => hvalue fn (Outcome.mem_functions_of_asValue hfn)
  | argument callee before after pos =>
    exact skipped_nextArgument h ht fun fn hfn => hheld fn (List.mem_append_left _ hfn)
  | discard => exact skipped_go h _ k
  | print pos => exact skipped_printAt h
  | define name pos => exact skipped_defineAt h (.refl _) (hdeclares name pos rfl)
  | branch whenTrue whenFalse =>
    unfold resume
    simp only
    split
    · exact skipped_go h _ k
    · split <;> exact skipped_go h _ k
  | loopTest condition body increment =>
    unfold resume
    simp only
    split
    · exact skipped_go h _ (_ :: k)
    · exact skipped_go h _ k
  | loopBody condition body increment =>
    unfold resume
    simp only
    split
    · exact skipped_go h _ k
    · exact skipped_go h _ k
    · split <;> exact skipped_go h _ (_ :: k)
  | loopNext condition body increment => exact skipped_go h _ (_ :: k)
  | giveBack => exact skipped_go h _ k
  | sequence rest =>
    unfold resume
    simp only
    split
    · exact skipped_go h _ (_ :: k)
    · exact skipped_go h _ k
  | leaveBlock frame caller => cases hscope
  | leaveCall f frame caller => cases hscope

/-- **A step is the same if frames are skipped**, unless it leaves a scope. Nothing is declared in a
frame that is skipped, and no function that is called has captured one. -/
theorem skipped_step {d : Configuration} {since : Nat} {held : Closure → Prop}
    (h : d.session.arena.Skips ρ) (hd : d.session.arena.Sound since held)
    (hstack : d.stack = top ++ k) (hbusy : ¬ d.IsOver k) (hwithin : d.scopeLeft? = none)
    (hcontrol : d.control.Enclosed top) (htop : Stack.Enclosed top)
    (hinner : Stack.scopes top ≠ [] → ρ d.session.arena.current = d.session.arena.current)
    (hheld : ∀ fn, fn ∈ d.control.functions ∨ fn ∈ Stack.functions top →
      ρ fn.captured = fn.captured) : Skipped ρ d.step (d.skip ρ).step := by
  obtain ⟨control, stack, t⟩ := d
  obtain rfl : stack = top ++ k := hstack
  cases control with
  | eval e => exact skipped_evaluate h hd.grounded e
  | exec st => exact skipped_execute h hd fun hdeclares => hinner (hcontrol.scope hdeclares)
  | done o =>
    cases htop with
    | nil => exact absurd ⟨rfl, .inl ⟨o, rfl⟩⟩ hbusy
    | @cons p top hp htop =>
      have hscope : p.scope? = none := hwithin
      show Skipped ρ _ (resume (p.skip ρ) o (Stack.skip ρ (top ++ k)) (t.skip ρ))
      rw [Continuation.skip_of_scope hscope]
      refine skipped_resume h hd.tidy hd.grounded hscope ?_ (fun fn hfn => hheld fn (.inl hfn))
        fun fn hfn => hheld fn (.inr (List.mem_append_left _ hfn))
      rintro name pos rfl
      refine hinner ?_
      rw [Stack.scopes_cons]
      exact hp
  | failed fault =>
    cases htop with
    | nil => exact absurd ⟨rfl, .inr ⟨fault, rfl⟩⟩ hbusy
    | @cons p top hp htop =>
      have hscope : p.scope? = none := hwithin
      show Skipped ρ (unwind p fault (top ++ k) t)
        (unwind (p.skip ρ) fault (Stack.skip ρ (top ++ k)) (t.skip ρ))
      rw [Continuation.skip_of_scope hscope, unwind_of_scope hscope, unwind_of_scope hscope]
      exact skipped_go h _ _

/-! ## Two machines -/

end Configuration

/-- Frames of `V` that are still there in both arenas are in `W`, with the names they had. -/
structure Arena.StillNamed (V : Set Handle) (φ : Handle → Handle) (a b : Arena) (W : Set Handle)
    (ψ : Handle → Handle) : Prop where
  names : ∀ x ∈ V, ψ x = φ x
  keeps : ∀ x ∈ V, a.Live x → b.Live (φ x) → x ∈ W

/-- Two sessions are the same within the frames in `V` if frames of the second, other than those
in which these are found, are skipped. -/
structure Session.MirrorsThrough (V : Set Handle) (φ ρ : Handle → Handle) (s t : Session) :
    Prop where
  mirrors : s.Mirrors V φ (t.skip ρ)
  skips : t.arena.Skips ρ
  apart : ∀ x ∈ V, ρ (φ x) = φ x

namespace Configuration

variable {c d : Configuration} {control : Control} {since since' : Nat}
  {kept kept' : Closure → Prop} {caller caller' frame x : Handle}

/-- Two machines do the same above the stacks `k` and `k'`, within the frames in `V`, if frames of
the second are skipped. -/
structure MirrorsThrough (k k' : Stack) (V : Set Handle) (φ ρ : Handle → Handle)
    (c d : Configuration) : Prop where
  control : d.control = c.control.rename φ
  carried : ∀ fn ∈ c.control.functions, fn.captured ∈ V
  stack : ∃ top top', c.stack = top ++ k ∧ d.stack = top' ++ k' ∧
    Stack.skip ρ top' = Stack.rename φ top ∧ Stack.Inside V top
  session : c.session.MirrorsThrough V φ ρ d.session

/-- Two machines do the same within other frames than before, and frames that are still there have
the names that `φ` gave them. -/
def MirroredThrough (k k' : Stack) (V : Set Handle) (φ ρ : Handle → Handle)
    (c d : Configuration) : Prop :=
  ∃ W ψ, c.MirrorsThrough k k' W ψ ρ d ∧
    Arena.StillNamed V φ c.session.arena d.session.arena W ψ

/-- Skipping the frames makes them the same. -/
theorem MirrorsThrough.mirrors (h : c.MirrorsThrough k k' V φ ρ d) :
    c.Mirrors k (Stack.skip ρ k') V φ (d.skip ρ) := by
  obtain ⟨hcontrol, hcarried, ⟨top, top', hstack, hstack', hsame, htop⟩, hsession⟩ := h
  refine ⟨hcontrol, hcarried, ⟨top, hstack, ?_, htop⟩, hsession.mirrors⟩
  show Stack.skip ρ d.stack = _
  rw [hstack', Stack.skip_append, hsame]

/-- Both come to the stacks at the same time. -/
theorem MirrorsThrough.isOver_iff (h : c.MirrorsThrough k k' V φ ρ d) :
    d.IsOver k' ↔ c.IsOver k := by
  obtain ⟨hcontrol, -, ⟨top, top', hstack, hstack', hsame, -⟩, -⟩ := h
  have hlength : top'.length = top.length := by
    have hlength := congrArg List.length hsame
    rwa [Stack.skip, Stack.rename, List.length_map, List.length_map] at hlength
  have hover : d.stack = k' ↔ c.stack = k := by
    rw [hstack, hstack', List.append_left_eq_self, List.append_left_eq_self,
      ← List.length_eq_zero_iff, ← List.length_eq_zero_iff, hlength]
  unfold IsOver
  rw [hover, hcontrol]
  refine and_congr Iff.rfl ?_
  cases c.control <;> simp [Control.rename]

/-- New names are not those of frames that are skipped. -/
theorem apart_of_later {a a' b' : Arena} (h : s.MirrorsThrough V φ ρ t)
    (hlater : a.Later V φ (t.arena.skip ρ) W ψ a' b') : ∀ x ∈ W, ρ (ψ x) = ψ x := by
  intro x hx
  rcases hlater.fresh x hx with hxV | ⟨-, hnew⟩
  · rw [hlater.names x hxV, h.apart x hxV]
  · exact h.skips.eq_of_not_live fun hlive => hnew (Arena.live_skip_iff.2 hlive)

/-- What is the same apart from frames that are skipped mirrors the same frames. -/
theorem mirrors_of_agrees {a b b' : Arena} (h : a.Mirrors V φ b) (hb : b.Agrees ρ b')
    (hapart : ∀ x ∈ V, ρ (φ x) = φ x) : a.Mirrors V φ b' where
  frame x hx := by
    obtain ⟨f, hf, hf', hlinks⟩ := h.frame x hx
    exact ⟨f, hf, (hb.frame _ (hapart x hx)).trans hf', hlinks⟩
  injective := h.injective
  nextFunction := hb.nextFunction.trans h.nextFunction
  policy := hb.policy.trans h.policy
  inside := h.inside
  current := hb.current.trans h.current

/-- A step of both is one step of the second if frames are skipped. -/
theorem mirroredThrough_of_skipped {e : Configuration} {c' : Configuration}
    (h : s.MirrorsThrough V φ ρ t) (hskipped : Skipped ρ d e)
    (hmirrored : Mirrored k (Stack.skip ρ k') V φ s (t.skip ρ) c' e)
    (hstack : ∃ top, d.stack = top ++ k') : MirroredThrough k k' V φ ρ c' d := by
  obtain ⟨W, ψ, hmirrors, hlater⟩ := hmirrored
  obtain ⟨hcontrol, hcarried, ⟨top, htop, htop', hinside⟩, hsession⟩ := hmirrors
  obtain ⟨top', hstack⟩ := hstack
  have hapart : ∀ x ∈ W, ρ (ψ x) = ψ x := apart_of_later h hlater
  have hsame : Stack.skip ρ top' = Stack.rename ψ top := by
    apply List.append_cancel_right
    rw [← htop', hskipped.stack, hstack, Stack.skip_append]
  refine ⟨W, ψ, ⟨?_, hcarried, ⟨top, top', htop, hstack, hsame, hinside⟩, ?_, hskipped.skips,
    hapart⟩, hlater.names, fun x hx hlive hlive' => ?_⟩
  · rw [← hskipped.control, hcontrol]
  · have hagrees := hskipped.session
    exact ⟨mirrors_of_agrees hsession.arena hagrees.arena hapart,
      hagrees.sink.trans hsession.sink, hagrees.depth.trans hsession.depth,
      hagrees.maxDepth.trans hsession.maxDepth⟩
  · -- a frame that is not skipped is there in one arena if it is in the other
    have hlive' : (d.session.skip ρ).arena.Live (φ x) := Arena.live_skip_iff.2 hlive'
    unfold Arena.Live at hlive'
    rw [hskipped.session.arena.frame _ (h.apart x hx)] at hlive'
    exact hlater.keeps x hx hlive hlive'

/-! ## Leaving scopes -/

/-- What a machine refers to is there also if frames are skipped. -/
theorem Intact.skip (h : c.Intact) (hground : c.session.arena.Grounded)
    (hskips : c.session.arena.Skips ρ) : (c.skip ρ).Intact where
  links := hskips.closed hground h.links
  current := Arena.live_skip_iff.2 (hskips.live hground h.links h.current)
  held fn hfn := by
    refine Arena.live_skip_iff.2 (h.held fn (hfn.imp id fun hfn => ?_))
    rwa [← Stack.functions_skip (ρ := ρ)]
  scopes scope hscope := by
    have hscope : scope ∈ Stack.scopes (Stack.skip ρ c.stack) := hscope
    rw [Stack.scopes_skip] at hscope
    obtain ⟨scope, hmem, rfl⟩ := List.mem_map.1 hscope
    obtain ⟨hframe, hcaller⟩ := h.scopes scope hmem
    exact ⟨Arena.live_skip_iff.2 hframe,
      Arena.live_skip_iff.2 (hskips.live hground h.links hcaller)⟩

theorem confine_eq_self {b : Arena} (h : ρ x = x) : b.confine ρ x = x := by
  unfold Arena.confine
  split
  · exact h
  · rfl

/-- Both go back to a scope, where the second may skip what it goes back to. -/
theorem mirroredThrough_back (calls : Nat) {top' : Stack} (h : s.MirrorsThrough V φ ρ t)
    (hs : s.GoesBack caller calls s') (ht : t.GoesBack caller' calls t')
    (hcallers : ρ caller' = φ caller) (hc : Intact ⟨control, top ++ k, s'⟩)
    (hd : Intact ⟨control.rename φ, top' ++ k', t'⟩) (hground : t'.arena.Grounded)
    (hcaller : caller ∈ V) (hcontrol : ∀ fn ∈ control.functions, fn.captured ∈ V)
    (hstack : Stack.skip ρ top' = Stack.rename φ top) (htop : Stack.Inside V top) :
    MirroredThrough k k' V φ (t'.arena.confine ρ) ⟨control, top ++ k, s'⟩
      ⟨control.rename φ, top' ++ k', t'⟩ := by
  have hskips := h.skips.within ht.arena.within hground hd.links
  -- the frames from which the remaining scopes were entered are there still
  have hstack' : Stack.skip (t'.arena.confine ρ) top' = Stack.rename φ top := by
    rw [← hstack]
    refine Stack.skip_congr fun scope hscope => Arena.confine_of_live ?_
    refine (hd.scopes scope ?_).2
    rw [scopes_append]
    exact List.mem_append_left _ hscope
  have hback : Session.GoesBack (t.skip ρ) (φ caller) calls
      (t'.skip (t'.arena.confine ρ)) := by
    refine ⟨?_, ht.sink, ht.depth, ht.maxDepth⟩
    rw [← hcallers]
    exact ht.arena.skip hd.links hd.current
  have hintact := hd.skip hground hskips
  unfold Configuration.skip at hintact
  simp only [Stack.skip_append, hstack'] at hintact
  obtain ⟨W, ψ, ⟨hcontrol, hcarried, ⟨above, habove, habove', hinside⟩, hsession⟩, hlater⟩ :=
    mirrored_back calls h.mirrors hs hback hc hintact hcaller hcontrol htop
  obtain rfl := List.append_cancel_right habove
  refine ⟨W, ψ, ⟨hcontrol, hcarried, ⟨top, top', rfl, rfl, ?_, hinside⟩, hsession, hskips,
    fun x hx => confine_eq_self (apart_of_later h hlater x hx)⟩, hlater.names,
    fun x hx hlive hlive' => hlater.keeps x hx hlive (Arena.live_skip_iff.2 hlive')⟩
  rw [hstack']
  exact List.append_cancel_right habove'

/-! ## Steps -/

/-- The second leaves a scope only if the first does. -/
theorem MirrorsThrough.scopeLeft?_eq_none (h : c.MirrorsThrough k k' V φ ρ d)
    (hbusy : ¬ c.IsOver k) (hwithin : c.scopeLeft? = none) : d.scopeLeft? = none := by
  obtain ⟨hcontrol, -, ⟨top, top', hstack, hstack', hsame, -⟩, -⟩ := h
  obtain ⟨control, stack, s⟩ := c
  obtain ⟨control', stack', t⟩ := d
  simp only at hcontrol hstack hstack'
  subst hcontrol hstack hstack'
  have hhead (hended : (∃ o, control = .done o) ∨ ∃ fault, control = .failed fault)
      (hnone : (top ++ k).head?.bind Continuation.scope? = none) :
      (top' ++ k').head?.bind Continuation.scope? = none := by
    cases top with
    | nil => exact absurd ⟨rfl, hended⟩ hbusy
    | cons p top =>
      cases top' with
      | nil => cases hsame
      | cons q top' =>
        have hscope := congrArg Continuation.scope? (List.cons.inj hsame).1
        rw [Continuation.scope?_skip, Continuation.scope?_rename,
          show p.scope? = none from hnone] at hscope
        exact Option.map_eq_none_iff.1 hscope
  cases control with
  | done o => exact hhead (.inl ⟨o, rfl⟩) hwithin
  | failed fault => exact hhead (.inr ⟨fault, rfl⟩) hwithin
  | _ => rfl

/-- Inside a scope that was entered above the stack, the second machine is in no frame that is
skipped. -/
theorem MirrorsThrough.inner (h : c.MirrorsThrough k k' V φ ρ d) (hd : d.Sound since' kept')
    (hstack : d.stack = top ++ k') (hscopes : Stack.scopes top ≠ []) :
    ρ d.session.arena.current = d.session.arena.current := by
  obtain ⟨-, -, ⟨above, above', -, hstack', hsame, hinside⟩, hsession⟩ := h
  obtain rfl : above' = top := List.append_cancel_right (hstack'.symm.trans hstack)
  have hnested := hd.scopes
  rw [hstack, scopes_append] at hnested
  have hmap := congrArg Stack.scopes hsame
  rw [Stack.scopes_skip, Stack.scopes_rename] at hmap
  -- the innermost scope is the first of those on the stack
  cases hfirst : Stack.scopes above' with
  | nil => exact absurd hfirst hscopes
  | cons scope scopes =>
    rw [hfirst] at hnested hmap
    cases hthere : Stack.scopes above with
    | nil =>
      rw [hthere] at hmap
      cases hmap
    | cons scope' scopes' =>
      rw [hthere] at hmap
      have hframe : scope.frame = φ scope'.frame :=
        congrArg Scope.frame (List.cons.inj hmap).1
      have hmem := (hinside.scopes scope' (hthere ▸ List.mem_cons_self)).1
      rw [List.cons_append] at hnested
      rw [hnested.current_eq_frame, hframe, hsession.apart _ hmem]

/-- Functions above the stack have captured no frame that is skipped. -/
theorem MirrorsThrough.held (h : c.MirrorsThrough k k' V φ ρ d) (hstack : d.stack = top ++ k')
    {fn : Closure} (hfn : fn ∈ d.control.functions ∨ fn ∈ Stack.functions top) :
    ρ fn.captured = fn.captured := by
  obtain ⟨hcontrol, hcarried, ⟨above, above', -, hstack', hsame, hinside⟩, hsession⟩ := h
  obtain rfl : above' = top := List.append_cancel_right (hstack'.symm.trans hstack)
  have hfunctions := congrArg Stack.functions hsame
  rw [Stack.functions_skip, Stack.functions_rename] at hfunctions
  rw [hcontrol, hfunctions, Control.functions_rename] at hfn
  rcases hfn with hfn | hfn
  · obtain ⟨f, hf, rfl⟩ := List.mem_map.1 hfn
    exact hsession.apart _ (hcarried f hf)
  · obtain ⟨f, hf, rfl⟩ := List.mem_map.1 hfn
    exact hsession.apart _ (hinside.functions f hf)

/-- Both leave a scope. -/
theorem MirrorsThrough.step_out (h : c.MirrorsThrough k k' V φ ρ d) (hc : c.Sound since kept)
    (hd : d.Sound since' kept') (hbusy : ¬ c.IsOver k) (hleft : c.scopeLeft? ≠ none) :
    MirroredThrough k k' V φ (d.step.session.arena.confine ρ) c.step d.step := by
  have hc' := hc.step.intact
  have hd' := hd.step.intact
  have hground := hd.step.arena.grounded
  obtain ⟨hcontrol, hcarried, ⟨top, top', hstack, hstack', hsame, hinside⟩, hsession⟩ := h
  obtain ⟨control, stack, s⟩ := c
  obtain ⟨control', stack', t⟩ := d
  simp only at hcontrol hcarried hstack hstack' hsession
  subst hcontrol hstack hstack'
  cases top with
  | nil =>
    -- something would have ended above the stack
    cases control with
    | done o => exact absurd ⟨rfl, .inl ⟨o, rfl⟩⟩ hbusy
    | failed fault => exact absurd ⟨rfl, .inr ⟨fault, rfl⟩⟩ hbusy
    | _ => exact absurd rfl hleft
  | cons p top =>
    obtain ⟨q, rest, rfl⟩ : ∃ q rest, top' = q :: rest := by
      cases top' with
      | nil => cases hsame
      | cons q rest => exact ⟨q, rest, rfl⟩
    obtain ⟨hhead, hrest⟩ := List.cons.inj hsame
    obtain ⟨-, hscope, htop⟩ := hinside.of_cons
    cases p with
    | leaveBlock frame caller =>
      obtain ⟨x, rfl, hx⟩ := Continuation.skip_eq_leaveBlock hhead
      cases control with
      | done o =>
        exact mirroredThrough_back 0 hsession (goesBack_leaveFrame ..) (goesBack_leaveFrame ..) hx
          hc' hd' hground (hscope _ rfl).2 hcarried hrest htop
      | failed fault =>
        exact mirroredThrough_back 0 hsession (goesBack_leaveFrame ..) (goesBack_leaveFrame ..) hx
          hc' hd' hground (hscope _ rfl).2 (List.forall_mem_nil _) hrest htop
      | _ => exact absurd rfl hleft
    | leaveCall f frame caller =>
      obtain ⟨x, rfl, hx⟩ := Continuation.skip_eq_leaveCall hhead
      cases control with
      | done o =>
        have hvalue : ∀ fn ∈ (Control.done (.value o.asValue)).functions, fn.captured ∈ V :=
          fun fn hfn => hcarried fn (Outcome.mem_functions_of_asValue hfn)
        simp only [Control.rename, List.cons_append, step, resume, Outcome.asValue_rename]
          at hc' hd' hground ⊢
        exact mirroredThrough_back 1 hsession (goesBack_leaveFrame ..) (goesBack_leaveFrame ..) hx
          hc' hd' hground (hscope _ rfl).2 hvalue hrest htop
      | failed fault =>
        exact mirroredThrough_back 1 hsession (goesBack_leaveFrame ..) (goesBack_leaveFrame ..) hx
          hc' hd' hground (hscope _ rfl).2 (List.forall_mem_nil _) hrest htop
      | _ => exact absurd rfl hleft
    | _ => cases control <;> exact absurd rfl hleft

/-- What is skipped is there. -/
theorem confine_eq {b : Arena} (h : b.Skips ρ) : b.confine ρ = ρ := by
  funext x
  by_cases hx : ρ x = x
  · rw [hx, confine_eq_self hx]
  · obtain ⟨f, -, hf, -⟩ := h.skipped x hx
    exact Arena.confine_of_live ⟨f, hf⟩

/-- **One step of both**, as long as something remains to be done above the stacks and has no effect
below. -/
theorem MirrorsThrough.step (h : c.MirrorsThrough k k' V φ ρ d) (hc : c.Sound since kept)
    (hd : d.Sound since' kept') (henclosed : d.Enclosed k') (hbusy : ¬ c.IsOver k) :
    MirroredThrough k k' V φ (d.step.session.arena.confine ρ) c.step d.step := by
  by_cases hleft : c.scopeLeft? = none
  · obtain ⟨top, hstack, hcontrol, htop⟩ := henclosed
    have hbusy' : ¬ d.IsOver k' := fun hover => hbusy (h.isOver_iff.1 hover)
    have hskipped := skipped_step h.session.skips hd.arena hstack hbusy'
      (h.scopeLeft?_eq_none hbusy hleft)
      hcontrol htop (h.inner hd hstack) fun fn => h.held hstack
    have hmirrored := h.mirrors.step_within hc.arena.tidy hc.arena.grounded hd.arena.tidy.skip
      hbusy hleft
    rw [confine_eq hskipped.skips]
    exact mirroredThrough_of_skipped h.session hskipped hmirrored (stack_step hstack hbusy')
  · exact h.step_out hc hd hbusy hleft

/-! ## Frames that only the second machine has -/

theorem goesBack_refl (s : Session) : s.GoesBack s.arena.current 0 s :=
  ⟨⟨fun _ _ hf => hf, rfl, rfl, rfl⟩, rfl, rfl, rfl⟩

/-- **The second machine leaves a frame that is skipped**, and the first does nothing. -/
theorem leave_through (h : s.MirrorsThrough V φ ρ t) (hs : Intact ⟨control, k, s⟩)
    (ht : Sound since' kept' ⟨control.rename φ, .leaveBlock frame x :: k', t⟩)
    (hended : (∃ o, control = .done o) ∨ ∃ fault, control = .failed fault)
    (hcontrol : ∀ fn ∈ control.functions, fn.captured ∈ V) (hskipped : ρ frame = ρ x) :
    ∃ t', step ⟨control.rename φ, .leaveBlock frame x :: k', t⟩ = ⟨control.rename φ, k', t'⟩ ∧
      t'.sink = t.sink ∧ MirroredThrough k k' V φ (t'.arena.confine ρ) ⟨control, k, s⟩
        ⟨control.rename φ, k', t'⟩ := by
  have ht' := ht.step.intact
  have hground := ht.step.arena.grounded
  -- the innermost scope is the frame that is left, so the other machine is where this one goes
  have hcallers : ρ x = φ s.arena.current := by
    have hnested : Nested (⟨frame, x, 0⟩ :: Stack.scopes k') t.arena.current t.arena.active :=
      ht.scopes
    have hcurrent : t.arena.current = frame := hnested.current_eq_frame
    rw [← hskipped, ← hcurrent]
    exact h.mirrors.arena.current
  have hnone : Stack.skip ρ [] = Stack.rename φ [] := rfl
  rcases hended with ⟨o, rfl⟩ | ⟨fault, rfl⟩
  · refine ⟨_, rfl, rfl, mirroredThrough_back 0 h (goesBack_refl s) (goesBack_leaveFrame ..)
      hcallers ?_ ?_ hground h.mirrors.arena.inside hcontrol hnone Stack.inside_nil⟩
    · exact hs
    · exact ht'
  · refine ⟨_, rfl, rfl, mirroredThrough_back 0 h (goesBack_refl s) (goesBack_leaveFrame ..)
      hcallers ?_ ?_ hground h.mirrors.arena.inside hcontrol hnone Stack.inside_nil⟩
    · exact hs
    · exact ht'

/-- **The second machine enters a frame that is skipped** from then on. -/
theorem enter_through {held : Closure → Prop} (h : s.MirrorsThrough V φ ρ t)
    (ht : t.arena.Sound since held) :
    ∃ σ, σ (t.arena.push t.arena.current).2 = σ t.arena.current ∧ s.MirrorsThrough V φ σ
      { t with
        arena := (t.arena.push t.arena.current).1.enter (t.arena.push t.arena.current).2 } := by
  have hnew {y : Handle} (hy : t.arena.Live y) : y ≠ (t.arena.push t.arena.current).2 := by
    rintro rfl
    exact Arena.not_live_iff.2 (ht.tidy.frame?_pushed _) hy
  have hlive {y : Handle} (hy : y ∈ V) : t.arena.Live (φ y) :=
    Arena.live_skip_iff.1 (h.mirrors.arena.live hy).2
  obtain ⟨σ, hσ⟩ : ∃ σ, σ = Function.update ρ (t.arena.push t.arena.current).2
    (ρ t.arena.current) := ⟨_, rfl⟩
  have hold {y : Handle} (hy : t.arena.Live y) : σ y = ρ y := by
    rw [hσ, Function.update_of_ne (hnew hy)]
  refine ⟨σ, ?_, ⟨?_, h.mirrors.sink, h.mirrors.depth, h.mirrors.maxDepth⟩, ?_, fun y hy => ?_⟩
  · rw [hold ht.current, hσ, Function.update_self]
  · exact
      { frame := by
          intro y hy
          obtain ⟨f, hf, hf', hlinks⟩ := h.mirrors.arena.frame y hy
          refine ⟨f, hf, ?_, hlinks⟩
          have hf' : (t.arena.skip ρ).frame? (φ y) = some (f.rename φ) := hf'
          rw [Arena.frame?_skip] at hf'
          obtain ⟨g, hg, hsame⟩ := Option.map_eq_some_iff.1 hf'
          show Arena.frame? (Arena.skip σ _) _ = _
          rw [Arena.frame?_skip, Arena.frame?_enter, ht.tidy.frame?_push_of_live _ hg,
            Option.map_some, ← hsame]
          exact congrArg some (Frame.skip_congr fun p hp =>
            hold (ht.live_link hg p (Frame.parent_mem_links hp)))
        injective := h.mirrors.arena.injective
        nextFunction := by
          show (t.arena.push _).1.nextFunction = _
          rw [Arena.nextFunction_push]
          exact h.mirrors.arena.nextFunction
        policy := by
          show (t.arena.push _).1.policy = _
          rw [Arena.policy_push]
          exact h.mirrors.arena.policy
        inside := h.mirrors.arena.inside
        current := by
          show σ (t.arena.push t.arena.current).2 = _
          rw [hσ, Function.update_self]
          exact h.mirrors.arena.current }
  · rw [hσ]
    exact (h.skips.space ht ht.current).enter _
  · rw [hold (hlive hy), h.apart y hy]

end Configuration

end Script
