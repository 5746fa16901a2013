import Script.Proofs.Arena.Mirroring
import Script.Proofs.Machine.Balance

/-!
# Machines that mirror each other

Two machines may have different things to do later, and frames of which the other knows nothing. As
long as what they do now stays within frames that are found in both, they do the same.

- `Outcome.rename`, `Control.rename`, `Continuation.rename`: controls and stacks under new names.
- `Stack.Inside`: a part of a stack refers to given frames only.
- `Session.Mirrors`, `Configuration.Mirrors`: two machines do the same above two stacks.
- `Configuration.Mirrored`: they do so within other frames than before, under other names.
- `mirrored_back`: both leave the scope they are in.
- `Mirrors.step_within`: one step of both that leaves no scope, whatever the second is inside of.
- `Mirrors.step`, `Mirrors.after`: one step, and any number of steps, of both.
-/

namespace Script

/-! ## Controls and stacks under new names -/

/-- A jump under new names of frames. -/
def Signal.rename (φ : Handle → Handle) : Signal → Signal
  | .returned v => .returned (v.rename φ)
  | signal => signal

/-- An outcome under new names of frames. -/
def Outcome.rename (φ : Handle → Handle) : Outcome → Outcome
  | .value v => .value (v.rename φ)
  | .signal s => .signal (s.rename φ)

/-- A control under new names of frames. -/
def Control.rename (φ : Handle → Handle) : Control → Control
  | .done o => .done (o.rename φ)
  | control => control

/-- A part of the stack under new names of frames. -/
def Continuation.rename (φ : Handle → Handle) : Continuation → Continuation
  | .binaryRight op left pos => .binaryRight op (left.rename φ) pos
  | .logicalRight left => .logicalRight (left.rename φ)
  | .argument v before after pos =>
    .argument (v.rename φ) (before.map (Value.rename φ)) after pos
  | .leaveBlock frame caller => .leaveBlock (φ frame) (φ caller)
  | .leaveCall f frame caller => .leaveCall (f.rename φ) (φ frame) (φ caller)
  | p => p

/-- A stack under new names of frames. -/
def Stack.rename (φ : Handle → Handle) (k : Stack) : Stack := k.map (Continuation.rename φ)

/-- A scope under new names of frames. -/
def Scope.rename (φ : Handle → Handle) (scope : Scope) : Scope where
  frame := φ scope.frame
  caller := φ scope.caller
  calls := scope.calls

variable {φ ψ : Handle → Handle} {pos : Position} {v : Value} {o : Outcome}
  {k : Stack} {p : Continuation} {s t : Session}

@[simp] theorem Outcome.asValue_rename (o : Outcome) :
    (o.rename φ).asValue = o.asValue.rename φ := by
  cases o with
  | value v => rfl
  | signal s => cases s <;> rfl

/-- The value at the end of a run is renamed with the outcome. -/
theorem Outcome.map_asValue_rename (r : Except Diagnostic Outcome) :
    (r.map Outcome.asValue).map (Value.rename φ) =
      (r.map (Outcome.rename φ)).map Outcome.asValue := by
  cases r with
  | ok o => exact congrArg Except.ok (Outcome.asValue_rename o).symm
  | error d => rfl

@[simp] theorem Outcome.asSignal_rename (o : Outcome) :
    (o.rename φ).asSignal = o.asSignal.rename φ := by
  cases o <;> rfl

@[simp] theorem Signal.isNormal_rename (s : Signal) : (s.rename φ).isNormal = s.isNormal := by
  cases s <;> rfl

theorem Value.rename_of_functions (h : v.functions = []) : v.rename φ = v := by
  cases v with
  | function f => cases h
  | _ => rfl

/-- No operator sees the names of frames. -/
@[simp] theorem UnaryOp.apply_rename (op : UnaryOp) (v : Value) :
    op.apply (v.rename φ) = op.apply v := by
  cases op <;> cases v <;> rfl

@[simp] theorem BinaryOp.apply_rename (op : BinaryOp) (v w : Value) :
    op.apply (v.rename φ) (w.rename φ) = op.apply v w := by
  cases op <;> cases v <;> cases w <;> rfl

@[simp] theorem LogicalOp.decides_rename (op : LogicalOp) (v : Value) :
    op.decides (v.rename φ) = op.decides v := by
  cases op <;> simp [decides]

/-- Values whose functions captured frames with the same new names are the same. -/
theorem Value.map_rename_congr {vs : List Value}
    (h : ∀ v ∈ vs, ∀ fn ∈ v.functions, ψ fn.captured = φ fn.captured) :
    vs.map (Value.rename ψ) = vs.map (Value.rename φ) :=
  List.map_congr_left fun v hv => Value.rename_congr (h v hv)

theorem Continuation.rename_congr (h : ∀ fn ∈ p.functions, ψ fn.captured = φ fn.captured)
    (hscope : ∀ scope, p.scope? = some scope →
      ψ scope.frame = φ scope.frame ∧ ψ scope.caller = φ scope.caller) :
    p.rename ψ = p.rename φ := by
  cases p with
  | binaryRight op left pos =>
    exact congrArg (fun v => Continuation.binaryRight op v pos) (Value.rename_congr h)
  | logicalRight left => exact congrArg Continuation.logicalRight (Value.rename_congr h)
  | argument callee before after pos =>
    have hcallee : callee.rename ψ = callee.rename φ :=
      Value.rename_congr fun fn hfn => h fn (List.mem_append_left _ hfn)
    have hbefore : before.map (Value.rename ψ) = before.map (Value.rename φ) :=
      Value.map_rename_congr fun v hv fn hfn =>
        h fn (List.mem_append_right _ (List.mem_flatMap.2 ⟨v, hv, hfn⟩))
    simp only [rename, hcallee, hbefore]
  | leaveBlock frame caller =>
    obtain ⟨hframe, hcaller⟩ := hscope _ rfl
    simp only at hframe hcaller
    simp only [rename, hframe, hcaller]
  | leaveCall callee frame caller =>
    obtain ⟨hframe, hcaller⟩ := hscope _ rfl
    simp only at hframe hcaller
    simp only [rename, Closure.rename, hframe, hcaller, h callee List.mem_cons_self]
  | _ => rfl

theorem Stack.rename_congr (h : ∀ fn ∈ Stack.functions k, ψ fn.captured = φ fn.captured)
    (hscope : ∀ scope ∈ Stack.scopes k,
      ψ scope.frame = φ scope.frame ∧ ψ scope.caller = φ scope.caller) :
    Stack.rename ψ k = Stack.rename φ k := by
  refine List.map_congr_left fun p hp => Continuation.rename_congr (fun fn hfn => ?_) ?_
  · exact h fn (List.mem_flatMap.2 ⟨p, hp, hfn⟩)
  · exact fun scope hs => hscope scope (List.mem_filterMap.2 ⟨p, hp, hs⟩)

/-! ## What is held under new names -/

theorem Value.flatMap_functions_rename (vs : List Value) :
    (vs.map (Value.rename φ)).flatMap Value.functions =
      (vs.flatMap Value.functions).map (Closure.rename φ) := by
  rw [List.flatMap_map, List.map_flatMap]
  exact List.flatMap_congr fun v _ => v.functions_rename

theorem Control.functions_rename (control : Control) :
    (control.rename φ).functions = control.functions.map (Closure.rename φ) := by
  cases control with
  | done o =>
    cases o with
    | value v => exact v.functions_rename
    | signal s =>
      cases s with
      | returned v => exact v.functions_rename
      | _ => rfl
  | _ => rfl

theorem Continuation.functions_rename (p : Continuation) :
    (p.rename φ).functions = p.functions.map (Closure.rename φ) := by
  cases p with
  | binaryRight op left pos => exact left.functions_rename
  | logicalRight left => exact left.functions_rename
  | argument callee before after pos =>
    show (callee.rename φ).functions ++ (before.map (Value.rename φ)).flatMap Value.functions = _
    rw [Value.functions_rename, Value.flatMap_functions_rename, ← List.map_append]
    rfl
  | _ => rfl

theorem Continuation.scope?_rename (p : Continuation) :
    (p.rename φ).scope? = p.scope?.map (Scope.rename φ) := by
  cases p <;> rfl

theorem Stack.functions_rename (k : Stack) :
    Stack.functions (Stack.rename φ k) = (Stack.functions k).map (Closure.rename φ) := by
  unfold Stack.functions Stack.rename
  rw [List.flatMap_map, List.map_flatMap]
  exact List.flatMap_congr fun p _ => p.functions_rename

theorem Stack.scopes_rename (k : Stack) :
    Stack.scopes (Stack.rename φ k) = (Stack.scopes k).map (Scope.rename φ) := by
  unfold Stack.scopes Stack.rename
  rw [List.filterMap_map, List.map_filterMap]
  exact List.filterMap_congr fun p _ => p.scope?_rename

/-! ## Machines that do the same -/

/-- A part of a stack refers to frames in `V` only. -/
structure Stack.Inside (V : Set Handle) (k : Stack) : Prop where
  functions : ∀ fn ∈ Stack.functions k, fn.captured ∈ V
  scopes : ∀ scope ∈ Stack.scopes k, scope.frame ∈ V ∧ scope.caller ∈ V

/-- Two sessions are the same within the frames in `V`, up to the innermost scope. -/
structure Session.Corresponds (V : Set Handle) (φ : Handle → Handle) (s t : Session) : Prop where
  arena : s.arena.Corresponds V φ t.arena
  sink : t.sink = s.sink
  depth : t.depth = s.depth
  maxDepth : t.maxDepth = s.maxDepth

/-- Two sessions are the same within the frames in `V`, of which the innermost scope is one. -/
structure Session.Mirrors (V : Set Handle) (φ : Handle → Handle) (s t : Session) : Prop where
  arena : s.arena.Mirrors V φ t.arena
  sink : t.sink = s.sink
  depth : t.depth = s.depth
  maxDepth : t.maxDepth = s.maxDepth

variable {V W : Set Handle} {k' top : Stack} {control : Control}

/-- The session `s'` has lost frames of `s` at most, and a number of calls has ended; `x` is its
innermost scope. -/
structure Session.GoesBack (s : Session) (x : Handle) (calls : Nat) (s' : Session) : Prop where
  arena : s.arena.GoesBack x s'.arena
  sink : s'.sink = s.sink
  depth : s'.depth = s.depth - calls
  maxDepth : s'.maxDepth = s.maxDepth

theorem Session.Mirrors.corresponds (h : s.Mirrors V φ t) : s.Corresponds V φ t :=
  ⟨h.arena.toCorresponds, h.sink, h.depth, h.maxDepth⟩

namespace Stack

theorem inside_nil : Inside V [] :=
  ⟨List.forall_mem_nil _, List.forall_mem_nil _⟩

theorem Inside.of_cons (h : Inside V (p :: k)) :
    (∀ fn ∈ p.functions, fn.captured ∈ V) ∧
      (∀ scope, p.scope? = some scope → scope.frame ∈ V ∧ scope.caller ∈ V) ∧ Inside V k := by
  obtain ⟨hfunctions, hscopes⟩ := h
  simp only [functions_cons, scopes_cons, List.mem_append, Option.mem_toList] at hfunctions hscopes
  exact ⟨fun fn hfn => hfunctions fn (.inl hfn), fun scope hscope => hscopes scope (.inl hscope),
    fun fn hfn => hfunctions fn (.inr hfn), fun scope hscope => hscopes scope (.inr hscope)⟩

theorem Inside.cons (h : Inside V k) (hp : ∀ fn ∈ p.functions, fn.captured ∈ V)
    (hscope : ∀ scope, p.scope? = some scope → scope.frame ∈ V ∧ scope.caller ∈ V) :
    Inside V (p :: k) := by
  constructor
  · intro fn hfn
    rw [functions_cons, List.mem_append] at hfn
    exact hfn.elim (hp fn) (h.functions fn)
  · intro scope hs
    rw [scopes_cons, List.mem_append, Option.mem_toList] at hs
    exact hs.elim (hscope scope) (h.scopes scope)

/-- Parts that hold nothing and leave no scope can be put on top. -/
theorem Inside.plain (h : Inside V k) (hp : p.functions = []) (hscope : p.scope? = none) :
    Inside V (p :: k) := by
  refine h.cons (fun fn hfn => ?_) fun scope hs => ?_
  · rw [hp] at hfn
    cases hfn
  · rw [hscope] at hs
    cases hs

theorem Inside.append (h : Inside V top) (hk : Inside V k) : Inside V (top ++ k) := by
  induction top with
  | nil => exact hk
  | cons p top ih =>
    obtain ⟨hp, hscope, hrest⟩ := h.of_cons
    exact (ih hrest).cons hp hscope

theorem Inside.mono (h : Inside V k) (hVW : ∀ x ∈ V, x ∈ W) : Inside W k :=
  ⟨fun fn hfn => hVW _ (h.functions fn hfn), fun scope hscope =>
    ⟨hVW _ (h.scopes scope hscope).1, hVW _ (h.scopes scope hscope).2⟩⟩

/-- New names that agree on frames in `V` agree on what refers to these only. -/
theorem Inside.rename_congr (h : Inside V k) (hψ : ∀ x ∈ V, ψ x = φ x) :
    rename ψ k = rename φ k :=
  Stack.rename_congr (fun fn hfn => hψ _ (h.functions fn hfn)) fun scope hscope =>
    ⟨hψ _ (h.scopes scope hscope).1, hψ _ (h.scopes scope hscope).2⟩

end Stack

namespace Configuration

/-- Two machines do the same above the stacks `k` and `k'`, within the frames in `V`. -/
structure Mirrors (k k' : Stack) (V : Set Handle) (φ : Handle → Handle) (c d : Configuration) :
    Prop where
  control : d.control = c.control.rename φ
  carried : ∀ fn ∈ c.control.functions, fn.captured ∈ V
  stack : ∃ top, c.stack = top ++ k ∧ d.stack = Stack.rename φ top ++ k' ∧ Stack.Inside V top
  session : c.session.Mirrors V φ d.session

/-- Two machines, which have come from the sessions `s` and `t`, do the same above `k` and `k'`. -/
def Mirrored (k k' : Stack) (V : Set Handle) (φ : Handle → Handle) (s t : Session)
    (c d : Configuration) : Prop :=
  ∃ W ψ, c.Mirrors k k' W ψ d ∧
    s.arena.Later V φ t.arena W ψ c.session.arena d.session.arena

/-- What the stacks begin with may as well be among what is done now. -/
theorem Mirrors.lower {c d : Configuration} {low : Stack}
    (h : c.Mirrors (low ++ k) (Stack.rename φ low ++ k') V φ d) (hlow : Stack.Inside V low) :
    c.Mirrors k k' V φ d := by
  obtain ⟨hcontrol, hcarried, ⟨top, hstack, hstack', htop⟩, hsession⟩ := h
  refine ⟨hcontrol, hcarried, ⟨top ++ low, ?_, ?_, htop.append hlow⟩, hsession⟩
  · rw [hstack, List.append_assoc]
  · rw [hstack', Stack.rename, Stack.rename, Stack.rename, List.map_append, List.append_assoc]

variable {s' t' : Session} {frame caller : Handle} {since since' : Nat}
  {kept kept' : Closure → Prop}

/-! ## The parts of a step -/

/-- The same control is reached in both, by changes within the frames in `V`. -/
theorem mirrored_of_follows (h : s'.Mirrors V φ t')
    (harena : s.arena.Follows V φ t.arena s'.arena t'.arena)
    (hcontrol : ∀ fn ∈ control.functions, fn.captured ∈ V) (htop : Stack.Inside V top) :
    Mirrored k k' V φ s t ⟨control, top ++ k, s'⟩
      ⟨control.rename φ, Stack.rename φ top ++ k', t'⟩ :=
  ⟨V, φ, ⟨rfl, hcontrol, ⟨top, rfl, rfl, htop⟩, h⟩, harena.later⟩

/-- The control and the stack change in the same way in both. -/
theorem mirrored_go (h : s.Mirrors V φ t) (hcontrol : ∀ fn ∈ control.functions, fn.captured ∈ V)
    (htop : Stack.Inside V top) :
    Mirrored k k' V φ s t ⟨control, top ++ k, s⟩ ⟨control.rename φ, Stack.rename φ top ++ k', t⟩ :=
  mirrored_of_follows h h.arena.refl hcontrol htop

/-- Both wait for something. -/
theorem mirrored_await (h : s.Mirrors V φ t) (p : Continuation)
    (hp : ∀ fn ∈ p.functions, fn.captured ∈ V) (hscope : p.scope? = none)
    (hcontrol : control.functions = []) (htop : Stack.Inside V top) :
    Mirrored k k' V φ s t ⟨control, p :: (top ++ k), s⟩
      ⟨control.rename φ, p.rename φ :: (Stack.rename φ top ++ k'), t⟩ := by
  have hinside : Stack.Inside V (p :: top) :=
    htop.cons hp fun scope hs => by rw [hscope] at hs; cases hs
  refine mirrored_go h (fun fn hfn => ?_) hinside
  rw [hcontrol] at hfn
  cases hfn

theorem mirrored_yield {r : Except Fault Value} (h : s.Mirrors V φ t)
    (hr : ∀ v, r = .ok v → v.functions = []) (htop : Stack.Inside V top) :
    Mirrored k k' V φ s t (yield r pos (top ++ k) s)
      (yield r pos (Stack.rename φ top ++ k') t) := by
  cases r with
  | ok v =>
    have hv : v.functions = [] := hr v rfl
    refine ⟨V, φ, ⟨?_, ?_, ⟨top, rfl, rfl, htop⟩, h⟩, h.arena.refl.later⟩
    · show Control.done (.value v) = .done (.value (v.rename φ))
      rw [Value.rename_of_functions hv]
    · show ∀ fn ∈ v.functions, fn.captured ∈ V
      rw [hv]
      exact List.forall_mem_nil _
  | error fault => exact mirrored_go h (List.forall_mem_nil _) htop

theorem mirrored_defineAt (h : s'.Mirrors V φ t')
    (harena : s.arena.Follows V φ t.arena s'.arena t'.arena)
    (hv : ∀ fn ∈ v.functions, fn.captured ∈ V) (htop : Stack.Inside V top) :
    Mirrored k k' V φ s t (defineAt name v pos (top ++ k) s')
      (defineAt name (v.rename φ) pos (Stack.rename φ top ++ k') t') := by
  obtain ⟨hdefine, hfault⟩ := h.arena.define hv name
  unfold defineAt
  rcases hd : s'.arena.define name v with ⟨a, fault⟩
  rcases hd' : t'.arena.define name (v.rename φ) with ⟨b, fault'⟩
  rw [hd, hd'] at hdefine hfault
  simp only at hdefine hfault
  subst hfault
  have hnext : Session.Mirrors V φ { s' with arena := a } { t' with arena := b } :=
    ⟨hdefine.mirrors, h.sink, h.depth, h.maxDepth⟩
  cases fault' with
  | none => exact mirrored_of_follows hnext (harena.trans hdefine) (List.forall_mem_nil _) htop
  | some fault =>
    exact mirrored_of_follows hnext (harena.trans hdefine) (List.forall_mem_nil _) htop

theorem mirrored_assignAt (h : s.Mirrors V φ t) (ha : s.arena.Grounded)
    (hv : ∀ fn ∈ v.functions, fn.captured ∈ V) (htop : Stack.Inside V top) :
    Mirrored k k' V φ s t (assignAt name v pos (top ++ k) s)
      (assignAt name (v.rename φ) pos (Stack.rename φ top ++ k') t) := by
  obtain ⟨harena, hfault⟩ := h.arena.assign ha hv name
  unfold assignAt
  rcases hd : s.arena.assign name v with ⟨a, fault⟩
  rcases hd' : t.arena.assign name (v.rename φ) with ⟨b, fault'⟩
  rw [hd, hd'] at harena hfault
  simp only at harena hfault
  subst hfault
  have hnext : Session.Mirrors V φ { s with arena := a } { t with arena := b } :=
    ⟨harena.mirrors, h.sink, h.depth, h.maxDepth⟩
  cases fault' with
  | none => exact mirrored_of_follows hnext harena hv htop
  | some fault => exact mirrored_of_follows hnext harena (List.forall_mem_nil _) htop

/-- The same text is written to the same sink. -/
theorem mirrored_printAt (h : s.Mirrors V φ t) (htop : Stack.Inside V top) :
    Mirrored k k' V φ s t (printAt v pos (top ++ k) s)
      (printAt (v.rename φ) pos (Stack.rename φ top ++ k') t) := by
  unfold printAt
  rw [Value.text_rename, h.sink]
  rcases s.sink.writeLine v.text with ⟨sink, refused⟩
  have hnext : Session.Mirrors V φ { s with sink := sink } { t with sink := sink } :=
    ⟨h.arena, rfl, h.depth, h.maxDepth⟩
  cases refused with
  | none => exact mirrored_of_follows hnext h.arena.refl (List.forall_mem_nil _) htop
  | some reason => exact mirrored_of_follows hnext h.arena.refl (List.forall_mem_nil _) htop

theorem follows_bindParams {a b : Arena} (h : a.Mirrors V φ b) (params : List Param)
    {args : List Value} (hargs : ∀ v ∈ args, ∀ fn ∈ v.functions, fn.captured ∈ V) :
    a.Follows V φ b (bindParams a params args).1
        (bindParams b params (args.map (Value.rename φ))).1 ∧
      (bindParams b params (args.map (Value.rename φ))).2 = (bindParams a params args).2 := by
  induction params generalizing a b args with
  | nil => exact ⟨h.refl, rfl⟩
  | cons p ps ih =>
    cases args with
    | nil => exact ⟨h.refl, rfl⟩
    | cons v vs =>
      obtain ⟨hv, hvs⟩ := List.forall_mem_cons.1 hargs
      obtain ⟨harena, hfault⟩ := h.define hv p.name
      rw [List.map_cons]
      unfold bindParams
      rcases hd : a.define p.name v with ⟨a', fault⟩
      rcases hd' : b.define p.name (v.rename φ) with ⟨b', fault'⟩
      rw [hd, hd'] at harena hfault
      simp only at harena hfault
      subst hfault
      -- the parameters after one that fails are not bound in either
      cases fault' with
      | none =>
        obtain ⟨hrest, hsame⟩ := ih harena.mirrors hvs
        exact ⟨harena.trans hrest, hsame⟩
      | some fault => exact ⟨harena, rfl⟩

/-! ## Entering scopes -/

theorem mirrored_enterBlock {body : List Stmt} (h : s.Mirrors V φ t) (hs : s.arena.Tidy)
    (ht : t.arena.Tidy) (htop : Stack.Inside V top) :
    Mirrored k k' V φ s t (enterBlock body (top ++ k) s)
      (enterBlock body (Stack.rename φ top ++ k') t) := by
  obtain ⟨ψ, hnew, hpushed, hlater⟩ := h.arena.pushed hs ht h.arena.inside
  rw [← h.arena.current] at hnew hpushed hlater
  have hinside : Stack.Inside (insert (s.arena.push s.arena.current).2 V)
      (.leaveBlock (s.arena.push s.arena.current).2 s.arena.current :: top) := by
    refine (htop.mono fun _ => Set.mem_insert_of_mem _).cons (List.forall_mem_nil _) ?_
    rintro _ ⟨⟩
    exact ⟨Set.mem_insert _ _, Set.mem_insert_of_mem _ h.arena.inside⟩
  refine ⟨_, ψ, ⟨rfl, List.forall_mem_nil _, ⟨.sequence body :: _, rfl, ?_,
    hinside.plain rfl rfl⟩, hpushed, h.sink, h.depth, h.maxDepth⟩, hlater⟩
  show Continuation.sequence body :: .leaveBlock (t.arena.push t.arena.current).2 t.arena.current ::
      (Stack.rename φ top ++ k') =
    .sequence body :: .leaveBlock (ψ (s.arena.push s.arena.current).2) (ψ s.arena.current) ::
      (Stack.rename ψ top ++ k')
  rw [htop.rename_congr hlater.names, hnew, hlater.names _ h.arena.inside, h.arena.current]

/-- A call enters its function in both, or fails in both in the same way. What is done next is above
the point where the call goes back to its caller, and refers to frames that its function and its
arguments refer to. -/
theorem mirrors_call {f : Closure} {args : List Value} (h : s.Corresponds V φ t)
    (hs : s.arena.Tidy) (ht : t.arena.Tidy) (hf : f.captured ∈ V)
    (hargs : ∀ v ∈ args, ∀ fn ∈ v.functions, fn.captured ∈ V) (pos : Position) (k k' : Stack) :
    (∃ d, call (.function f) args pos k s = ⟨.failed d, k, s⟩ ∧
      call (.function (f.rename φ)) (args.map (Value.rename φ)) pos k' t = ⟨.failed d, k', t⟩) ∨
    ∃ W ψ, (s.arena.push f.captured).2 ∈ W ∧ (∀ x ∈ V, x ∈ W) ∧
      ψ (s.arena.push f.captured).2 = (t.arena.push (φ f.captured)).2 ∧
      Mirrors (.leaveCall f (s.arena.push f.captured).2 s.arena.current :: k)
        (.leaveCall (f.rename φ) (t.arena.push (φ f.captured)).2 t.arena.current :: k') W ψ
        (call (.function f) args pos k s)
        (call (.function (f.rename φ)) (args.map (Value.rename φ)) pos k' t) ∧
      s.arena.Later V φ t.arena W ψ (call (.function f) args pos k s).session.arena
        (call (.function (f.rename φ)) (args.map (Value.rename φ)) pos k' t).session.arena := by
  obtain ⟨ψ, hnew, hpushed, hlater⟩ := h.arena.pushed hs ht hf
  have hold {x : Handle} (hx : x ∈ V) : x ∈ insert (s.arena.push f.captured).2 V :=
    Set.mem_insert_of_mem _ hx
  -- nothing that the call holds is renamed by giving the new frame its name
  have hrename : args.map (Value.rename φ) = args.map (Value.rename ψ) :=
    Value.map_rename_congr fun v hv fn hfn => (hlater.names _ (hargs v hv fn hfn)).symm
  obtain ⟨hbind, hfailure⟩ := follows_bindParams hpushed f.decl.params
    fun v hv fn hfn => hold (hargs v hv fn hfn)
  rw [← hrename] at hbind hfailure
  have hchange := hlater.follows hbind fun _ => hold
  rcases hb : bindParams _ f.decl.params args with ⟨a, failure⟩
  rcases hb' : bindParams _ f.decl.params (args.map (Value.rename φ)) with ⟨b, failure'⟩
  rw [hb, hb'] at hbind hfailure hchange
  simp only at hbind hfailure hchange
  subst hfailure
  unfold call
  simp only [Closure.rename, List.length_map, h.depth, h.maxDepth, hb, hb']
  split
  · exact .inl ⟨_, rfl, rfl⟩
  split
  · exact .inl ⟨_, rfl, rfl⟩
  refine .inr ⟨_, ψ, Set.mem_insert _ _, fun _ => hold, hnew, ?_⟩
  cases failure' with
  | none =>
    have hbody : Stack.Inside (insert (s.arena.push f.captured).2 V) [.sequence f.decl.body] :=
      Stack.inside_nil.plain rfl rfl
    exact ⟨⟨rfl, List.forall_mem_nil _, ⟨_, rfl, rfl, hbody⟩, hbind.mirrors, h.sink, rfl, rfl⟩,
      hchange⟩
  | some d =>
    exact ⟨⟨rfl, List.forall_mem_nil _, ⟨[], rfl, rfl, Stack.inside_nil⟩, hbind.mirrors, h.sink,
      rfl, rfl⟩, hchange⟩

theorem mirrored_call {callee : Value} {args : List Value} (h : s.Mirrors V φ t)
    (hs : s.arena.Tidy) (ht : t.arena.Tidy) (hcallee : ∀ fn ∈ callee.functions, fn.captured ∈ V)
    (hargs : ∀ v ∈ args, ∀ fn ∈ v.functions, fn.captured ∈ V) (htop : Stack.Inside V top) :
    Mirrored k k' V φ s t (call callee args pos (top ++ k) s)
      (call (callee.rename φ) (args.map (Value.rename φ)) pos (Stack.rename φ top ++ k') t) := by
  cases callee with
  | function f =>
    have hf : f.captured ∈ V := hcallee f List.mem_cons_self
    rcases mirrors_call h.corresponds hs ht hf hargs pos (top ++ k) (Stack.rename φ top ++ k') with
      ⟨d, hcall, hcall'⟩ | ⟨W, ψ, hnew, hVW, hname, hmirrors, hlater⟩
    · rw [hcall, show Value.rename φ (.function f) = .function (f.rename φ) from rfl, hcall']
      exact mirrored_go h (List.forall_mem_nil _) htop
    · have hinside : Stack.Inside W
          (.leaveCall f (s.arena.push f.captured).2 s.arena.current :: top) := by
        refine (htop.mono hVW).cons (fun fn hfn => ?_) ?_
        · obtain rfl := List.mem_singleton.1 hfn
          exact hVW _ hf
        · rintro _ ⟨⟩
          exact ⟨hnew, hVW _ h.arena.inside⟩
      have hstack : Stack.rename ψ
          (.leaveCall f (s.arena.push f.captured).2 s.arena.current :: top) =
            .leaveCall (f.rename φ) (t.arena.push (φ f.captured)).2 t.arena.current ::
              Stack.rename φ top := by
        show Continuation.leaveCall (f.rename ψ) (ψ (s.arena.push f.captured).2)
          (ψ s.arena.current) :: Stack.rename ψ top = _
        rw [htop.rename_congr hlater.names, hname, hlater.names _ h.arena.inside, h.arena.current,
          Closure.rename, Closure.rename, hlater.names _ hf]
      refine ⟨W, ψ, Mirrors.lower ?_ hinside, hlater⟩
      rw [hstack]
      exact hmirrors
  | number x => exact mirrored_go h (List.forall_mem_nil _) htop
  | string s => exact mirrored_go h (List.forall_mem_nil _) htop
  | bool b => exact mirrored_go h (List.forall_mem_nil _) htop
  | nil => exact mirrored_go h (List.forall_mem_nil _) htop

theorem mirrored_nextArgument {callee : Value} {before : List Value} {after : List Expr}
    (h : s.Mirrors V φ t) (hs : s.arena.Tidy) (ht : t.arena.Tidy)
    (hcallee : ∀ fn ∈ callee.functions, fn.captured ∈ V)
    (hbefore : ∀ v ∈ before, ∀ fn ∈ v.functions, fn.captured ∈ V) (htop : Stack.Inside V top) :
    Mirrored k k' V φ s t (nextArgument callee before after pos (top ++ k) s)
      (nextArgument (callee.rename φ) (before.map (Value.rename φ)) after pos
        (Stack.rename φ top ++ k') t) := by
  cases after with
  | cons e after =>
    refine mirrored_await h (.argument callee before after pos) (fun fn hfn => ?_) rfl rfl htop
    rcases List.mem_append.1 hfn with hfn | hfn
    · exact hcallee fn hfn
    · obtain ⟨v, hv, hfn⟩ := List.mem_flatMap.1 hfn
      exact hbefore v hv fn hfn
  | nil =>
    unfold nextArgument
    simp only [← List.map_reverse]
    exact mirrored_call h hs ht hcallee (fun v hv => hbefore v (List.mem_reverse.1 hv)) htop

/-! ## Leaving scopes -/

/-- What a machine without dangling handles holds, and the scopes it leaves, are there. -/
theorem Sound.live {c : Configuration} (h : c.Sound since kept) :
    (∀ fn, c.Holds fn → c.session.arena.Live fn.captured) ∧
      ∀ scope ∈ Stack.scopes c.stack,
        c.session.arena.Live scope.frame ∧ c.session.arena.Live scope.caller := by
  refine ⟨fun fn hfn => (h.arena.carries fn (.inl (.inl hfn))).live, fun scope hscope => ?_⟩
  refine ⟨h.arena.active _ (h.scopes.frame scope hscope), ?_⟩
  rcases h.scopes.entered_from scope hscope with hx | hx
  · exact h.arena.active _ hx
  · rw [hx]
    exact h.arena.live_toplevel

/-- Whatever a machine refers to is there. -/
structure Intact (c : Configuration) : Prop where
  links : c.session.arena.Closed
  current : c.session.arena.Live c.session.arena.current
  held : ∀ fn, c.Holds fn → c.session.arena.Live fn.captured
  scopes : ∀ scope ∈ Stack.scopes c.stack,
    c.session.arena.Live scope.frame ∧ c.session.arena.Live scope.caller

theorem Sound.intact {c : Configuration} (h : c.Sound since kept) : c.Intact :=
  ⟨h.arena.closed, h.arena.current, h.live.1, h.live.2⟩

theorem goesBack_leaveFrame (s : Session) (frame caller : Handle) (outside : List Closure)
    (calls : Nat) :
    s.GoesBack caller calls
      { s with
        arena := leaveFrame s.arena frame caller outside
        depth := s.depth - calls } :=
  ⟨Arena.goesBack_release .., rfl, rfl, rfl⟩

/-- Both go back to a scope. What both still hold is there in both. -/
theorem mirrored_back (calls : Nat) (h : s.Mirrors V φ t) (hs : s.GoesBack caller calls s')
    (ht : t.GoesBack (φ caller) calls t') (hc : Intact ⟨control, top ++ k, s'⟩)
    (hd : Intact ⟨control.rename φ, Stack.rename φ top ++ k', t'⟩) (hcaller : caller ∈ V)
    (hcontrol : ∀ fn ∈ control.functions, fn.captured ∈ V) (htop : Stack.Inside V top) :
    Mirrored k k' V φ s t ⟨control, top ++ k, s'⟩
      ⟨control.rename φ, Stack.rename φ top ++ k', t'⟩ := by
  obtain ⟨-, hlater⟩ := h.arena.left hs.arena ht.arena hc.links hd.links
  have harena := h.arena.left_inside hcaller hs.arena ht.arena hc.links hd.links hc.current
    hd.current
  have hheld := hc.held
  have hheld' := hd.held
  have hscopes := hc.scopes
  have hscopes' := hd.scopes
  simp only [Holds, scopes_append, Control.functions_rename, Stack.functions_append,
    Stack.functions_rename, Stack.scopes_rename, List.mem_append] at hheld hscopes hheld' hscopes'
  have hcarried : ∀ fn ∈ control.functions, fn.captured ∈ Arena.remaining V φ s'.arena t'.arena :=
    fun fn hfn =>
      ⟨hcontrol fn hfn, hheld fn (.inl hfn), hheld' _ (.inl (List.mem_map_of_mem hfn))⟩
  have hinside : Stack.Inside (Arena.remaining V φ s'.arena t'.arena) top := by
    constructor
    · intro fn hfn
      exact ⟨htop.functions fn hfn, hheld fn (.inr (.inl hfn)),
        hheld' _ (.inr (.inl (List.mem_map_of_mem hfn)))⟩
    · intro scope hscope
      obtain ⟨hframe, hentered⟩ := htop.scopes scope hscope
      obtain ⟨hlive, hlive'⟩ := hscopes scope (.inl hscope)
      obtain ⟨hnamed, hnamed'⟩ := hscopes' _ (.inl (List.mem_map_of_mem hscope))
      exact ⟨⟨hframe, hlive, hnamed⟩, hentered, hlive', hnamed'⟩
  refine ⟨_, φ, ⟨rfl, hcarried, ⟨top, rfl, rfl, hinside⟩, harena, ?_, ?_, ?_⟩, hlater⟩
  · rw [hs.sink, ht.sink, h.sink]
  · rw [hs.depth, ht.depth, h.depth]
  · rw [hs.maxDepth, ht.maxDepth, h.maxDepth]

/-! ## Steps -/

theorem mirrored_evaluate {e : Expr} (h : s.Mirrors V φ t) (hs : s.arena.Grounded)
    (htop : Stack.Inside V top) :
    Mirrored k k' V φ s t (evaluate e (top ++ k) s) (evaluate e (Stack.rename φ top ++ k') t) := by
  have hnone : ∀ fn ∈ ([] : List Closure), fn.captured ∈ V := List.forall_mem_nil _
  cases e with
  | literal l pos =>
    have hplain : (Value.ofLiteral l).functions = [] := functions_ofLiteral l
    show Mirrored k k' V φ s t (yield (.ok (.ofLiteral l)) pos _ s)
      (yield (.ok (.ofLiteral l)) pos _ t)
    exact mirrored_yield h (fun v hv => Except.ok.inj hv ▸ hplain) htop
  | ident name pos =>
    obtain ⟨hsame, hinside⟩ := h.arena.get? hs name
    unfold evaluate
    simp only [hsame]
    cases hget : s.arena.get? name with
    | none => exact mirrored_go h hnone htop
    | some v => exact mirrored_go h (hinside v hget) htop
  | group inner pos => exact mirrored_go h hnone htop
  | assign name value pos => exact mirrored_await h (.assign name pos) hnone rfl rfl htop
  | unary op operand pos => exact mirrored_await h (.unary op pos) hnone rfl rfl htop
  | binary op left right pos => exact mirrored_await h (.binaryLeft op right pos) hnone rfl rfl htop
  | logical op left right pos => exact mirrored_await h (.logicalLeft op right) hnone rfl rfl htop
  | call callee args pos => exact mirrored_await h (.callee args pos) hnone rfl rfl htop

theorem mirrored_execute {st : Stmt} (h : s.Mirrors V φ t) (hs : s.arena.Tidy)
    (hgrounded : s.arena.Grounded) (ht : t.arena.Tidy) (htop : Stack.Inside V top) :
    Mirrored k k' V φ s t (execute st (top ++ k) s) (execute st (Stack.rename φ top ++ k') t) := by
  have hnone : ∀ fn ∈ ([] : List Closure), fn.captured ∈ V := List.forall_mem_nil _
  cases st with
  | expression e => exact mirrored_await h .discard hnone rfl rfl htop
  | print e pos => exact mirrored_await h (.print pos) hnone rfl rfl htop
  | declare name initial pos =>
    cases initial with
    | none => exact mirrored_defineAt h h.arena.refl hnone htop
    | some e => exact mirrored_await h (.define name pos) hnone rfl rfl htop
  | block body => exact mirrored_enterBlock h hs ht htop
  | branch condition whenTrue whenFalse pos =>
    exact mirrored_await h (.branch whenTrue whenFalse) hnone rfl rfl htop
  | loop condition body increment pos =>
    exact mirrored_await h (.loopTest condition body increment) hnone rfl rfl htop
  | exitLoop pos => exact mirrored_go h hnone htop
  | nextIteration pos => exact mirrored_go h hnone htop
  | function decl =>
    obtain ⟨harena, hf⟩ := h.arena.closure hgrounded decl
    have hclosure : Session.Mirrors V φ { s with arena := (s.arena.closure decl).1 }
        { t with arena := (t.arena.closure decl).1 } :=
      ⟨harena.mirrors, h.sink, h.depth, h.maxDepth⟩
    have hcaptured : ∀ fn ∈ (Value.function (s.arena.closure decl).2).functions,
        fn.captured ∈ V := by
      intro fn hfn
      obtain rfl := List.mem_singleton.1 hfn
      exact h.arena.inside
    show Mirrored k k' V φ s t
      (defineAt decl.name (.function (s.arena.closure decl).2) decl.pos _ _)
      (defineAt decl.name (.function (t.arena.closure decl).2) decl.pos _ _)
    rw [hf]
    exact mirrored_defineAt hclosure harena hcaptured htop
  | giveBack value pos =>
    cases value with
    | none => exact mirrored_go h hnone htop
    | some e => exact mirrored_await h .giveBack hnone rfl rfl htop

/-- A part of the stack that leaves no scope is resumed in both. -/
theorem mirrored_resume_within (h : s.Mirrors V φ t) (hscope : p.scope? = none)
    (hs : s.arena.Tidy) (hgrounded : s.arena.Grounded) (ht : t.arena.Tidy)
    (ho : ∀ fn ∈ o.functions, fn.captured ∈ V) (htop : Stack.Inside V (p :: top)) :
    Mirrored k k' V φ s t (resume p o (top ++ k) s)
      (resume (p.rename φ) (o.rename φ) (Stack.rename φ top ++ k') t) := by
  obtain ⟨hp, -, hrest⟩ := htop.of_cons
  have hnone : ∀ fn ∈ ([] : List Closure), fn.captured ∈ V := List.forall_mem_nil _
  have hvalue : ∀ fn ∈ o.asValue.functions, fn.captured ∈ V := fun fn hfn =>
    ho fn (Outcome.mem_functions_of_asValue hfn)
  have hsignal : ∀ fn ∈ o.asSignal.functions, fn.captured ∈ V := fun fn hfn =>
    ho fn (Outcome.mem_functions_of_asSignal hfn)
  have hreturned {v : Value} (hjump : o.asSignal = .returned v) :
      ∀ fn ∈ (Control.done (.signal (.returned v))).functions, fn.captured ∈ V := by
    rw [hjump] at hsignal
    exact hsignal
  have hasValue : (o.rename φ).asValue = o.asValue.rename φ := Outcome.asValue_rename o
  have hasSignal : (o.rename φ).asSignal = o.asSignal.rename φ := Outcome.asSignal_rename o
  cases p with
  | assign name pos =>
    simp only [resume, Continuation.rename, hasValue]
    exact mirrored_assignAt h hgrounded hvalue hrest
  | unary op pos =>
    simp only [resume, Continuation.rename, hasValue, UnaryOp.apply_rename]
    exact mirrored_yield h (fun v => UnaryOp.functions_apply) hrest
  | binaryLeft op right pos =>
    simp only [resume, Continuation.rename, hasValue]
    exact mirrored_await h (.binaryRight op o.asValue pos) hvalue rfl rfl hrest
  | binaryRight op left pos =>
    simp only [resume, Continuation.rename, hasValue, BinaryOp.apply_rename]
    exact mirrored_yield h (fun v => BinaryOp.functions_apply) hrest
  | logicalLeft op right =>
    simp only [resume, Continuation.rename, hasValue, LogicalOp.decides_rename]
    split
    · exact mirrored_go h hvalue hrest
    · exact mirrored_await h (.logicalRight o.asValue) hvalue rfl rfl hrest
  | logicalRight left => exact mirrored_go h ho hrest
  | callee args pos =>
    simp only [resume, Continuation.rename, hasValue]
    exact mirrored_nextArgument h hs ht hvalue (List.forall_mem_nil _) hrest
  | argument callee before after pos =>
    simp only [resume, Continuation.rename, hasValue]
    refine mirrored_nextArgument h hs ht
      (fun fn hfn => hp fn (List.mem_append_left _ hfn)) (List.forall_mem_cons.2 ⟨hvalue, ?_⟩) hrest
    exact fun v hv fn hfn => hp fn (List.mem_append_right _ (List.mem_flatMap.2 ⟨v, hv, hfn⟩))
  | discard => exact mirrored_go h hnone hrest
  | print pos =>
    simp only [resume, Continuation.rename, hasValue]
    exact mirrored_printAt h hrest
  | define name pos =>
    simp only [resume, Continuation.rename, hasValue]
    exact mirrored_defineAt h h.arena.refl hvalue hrest
  | branch whenTrue whenFalse =>
    simp only [resume, Continuation.rename, hasValue, Value.isTruthy_rename]
    split
    · exact mirrored_go h hnone hrest
    · cases whenFalse with
      | none => exact mirrored_go h hnone hrest
      | some st => exact mirrored_go h hnone hrest
  | loopTest condition body increment =>
    simp only [resume, Continuation.rename, hasValue, Value.isTruthy_rename]
    split
    · exact mirrored_await h (.loopBody condition body increment) hnone rfl rfl hrest
    · exact mirrored_go h hnone hrest
  | loopBody condition body increment =>
    simp only [resume, Continuation.rename, hasSignal]
    cases hjump : o.asSignal with
    | exitLoop => exact mirrored_go h hnone hrest
    | returned v => exact mirrored_go h (hreturned hjump) hrest
    | normal =>
      cases increment with
      | none => exact mirrored_await h (.loopTest condition body none) hnone rfl rfl hrest
      | some e => exact mirrored_await h (.loopNext condition body (some e)) hnone rfl rfl hrest
    | nextIteration =>
      cases increment with
      | none => exact mirrored_await h (.loopTest condition body none) hnone rfl rfl hrest
      | some e => exact mirrored_await h (.loopNext condition body (some e)) hnone rfl rfl hrest
  | loopNext condition body increment =>
    exact mirrored_await h (.loopTest condition body increment) hnone rfl rfl hrest
  | giveBack =>
    simp only [resume, Continuation.rename, hasValue]
    have hcontrol : ∀ fn ∈ (Control.done (.signal (.returned o.asValue))).functions,
        fn.captured ∈ V := hvalue
    exact mirrored_go h hcontrol hrest
  | sequence rest =>
    simp only [resume, Continuation.rename, hasSignal]
    cases hjump : o.asSignal with
    | normal =>
      cases rest with
      | nil => exact mirrored_go h hnone hrest
      | cons st rest => exact mirrored_await h (.sequence rest) hnone rfl rfl hrest
    | exitLoop => exact mirrored_go h hnone hrest
    | nextIteration => exact mirrored_go h hnone hrest
    | returned v => exact mirrored_go h (hreturned hjump) hrest
  | leaveBlock frame caller => cases hscope
  | leaveCall f frame caller => cases hscope

theorem mirrored_resume (h : s.Mirrors V φ t)
    (hs : Sound since kept ⟨.done o, p :: (top ++ k), s⟩)
    (ht : Sound since' kept' ⟨.done (o.rename φ), p.rename φ :: (Stack.rename φ top ++ k'), t⟩)
    (ho : ∀ fn ∈ o.functions, fn.captured ∈ V) (htop : Stack.Inside V (p :: top)) :
    Mirrored k k' V φ s t (resume p o (top ++ k) s)
      (resume (p.rename φ) (o.rename φ) (Stack.rename φ top ++ k') t) := by
  obtain ⟨-, hscope, hrest⟩ := htop.of_cons
  cases p with
  | leaveBlock frame caller =>
    exact mirrored_back 0 h (goesBack_leaveFrame ..) (goesBack_leaveFrame ..) hs.step.intact
      ht.step.intact (hscope _ rfl).2 ho hrest
  | leaveCall f frame caller =>
    have hvalue : ∀ fn ∈ (Control.done (.value o.asValue)).functions, fn.captured ∈ V :=
      fun fn hfn => ho fn (Outcome.mem_functions_of_asValue hfn)
    have hstep := hs.step
    have hstep' := ht.step
    simp only [Continuation.rename, Outcome.asValue_rename, step, resume] at hstep hstep' ⊢
    exact mirrored_back 1 h (goesBack_leaveFrame ..) (goesBack_leaveFrame ..) hstep.intact
      hstep'.intact (hscope _ rfl).2 hvalue hrest
  | _ =>
    exact mirrored_resume_within h rfl hs.arena.tidy hs.arena.grounded ht.arena.tidy ho htop

theorem mirrored_unwind {d : Diagnostic} (h : s.Mirrors V φ t)
    (hs : Sound since kept ⟨.failed d, p :: (top ++ k), s⟩)
    (ht : Sound since' kept' ⟨.failed d, p.rename φ :: (Stack.rename φ top ++ k'), t⟩)
    (htop : Stack.Inside V (p :: top)) :
    Mirrored k k' V φ s t (unwind p d (top ++ k) s)
      (unwind (p.rename φ) d (Stack.rename φ top ++ k') t) := by
  obtain ⟨-, hscope, hrest⟩ := htop.of_cons
  have hnone : ∀ fn ∈ ([] : List Closure), fn.captured ∈ V := List.forall_mem_nil _
  -- a failure goes through everything but the scopes
  cases p with
  | leaveBlock frame caller =>
    exact mirrored_back 0 h (goesBack_leaveFrame ..) (goesBack_leaveFrame ..) hs.step.intact
      ht.step.intact (hscope _ rfl).2 hnone hrest
  | leaveCall f frame caller =>
    exact mirrored_back 1 h (goesBack_leaveFrame ..) (goesBack_leaveFrame ..) hs.step.intact
      ht.step.intact (hscope _ rfl).2 hnone hrest
  | _ => exact mirrored_go h hnone hrest

/-- **One step of both**, as long as something remains to be done above the stacks. -/
theorem Mirrors.step {c d : Configuration} (h : c.Mirrors k k' V φ d) (hc : c.Sound since kept)
    (hd : d.Sound since' kept') (hbusy : ¬ c.IsOver k) :
    Mirrored k k' V φ c.session d.session c.step d.step := by
  obtain ⟨hcontrol, hcarried, ⟨top, hstack, hstack', htop⟩, hsession⟩ := h
  obtain ⟨control, stack, s⟩ := c
  obtain ⟨control', stack', t⟩ := d
  simp only at hcontrol hcarried hstack hstack' hsession
  subst hcontrol hstack hstack'
  cases control with
  | eval e => exact mirrored_evaluate hsession hc.arena.grounded htop
  | exec st => exact mirrored_execute hsession hc.arena.tidy hc.arena.grounded hd.arena.tidy htop
  | done o =>
    cases top with
    | nil => exact absurd ⟨rfl, .inl ⟨o, rfl⟩⟩ hbusy
    | cons p top => exact mirrored_resume hsession hc hd hcarried htop
  | failed d =>
    cases top with
    | nil => exact absurd ⟨rfl, .inr ⟨d, rfl⟩⟩ hbusy
    | cons p top => exact mirrored_unwind hsession hc hd htop

/-- The scope that the next step leaves. -/
def scopeLeft? (c : Configuration) : Option Scope :=
  match c.control with
  | .done _ => c.stack.head?.bind Continuation.scope?
  | .failed _ => c.stack.head?.bind Continuation.scope?
  | _ => none

theorem unwind_of_scope {d : Diagnostic} (h : p.scope? = none) :
    unwind p d k s = ⟨.failed d, k, s⟩ := by
  cases p <;> first | rfl | cases h

/-- A step of both that leaves no scope. Nothing has to be known of the second machine but that its
arena is tidy. -/
theorem Mirrors.step_within {c d : Configuration} (h : c.Mirrors k k' V φ d)
    (hc : c.session.arena.Tidy) (hgrounded : c.session.arena.Grounded)
    (hd : d.session.arena.Tidy) (hbusy : ¬ c.IsOver k) (hwithin : c.scopeLeft? = none) :
    Mirrored k k' V φ c.session d.session c.step d.step := by
  obtain ⟨hcontrol, hcarried, ⟨top, hstack, hstack', htop⟩, hsession⟩ := h
  obtain ⟨control, stack, s⟩ := c
  obtain ⟨control', stack', t⟩ := d
  simp only at hcontrol hcarried hstack hstack' hsession
  subst hcontrol hstack hstack'
  cases control with
  | eval e => exact mirrored_evaluate hsession hgrounded htop
  | exec st => exact mirrored_execute hsession hc hgrounded hd htop
  | done o =>
    cases top with
    | nil => exact absurd ⟨rfl, .inl ⟨o, rfl⟩⟩ hbusy
    | cons p top => exact mirrored_resume_within hsession hwithin hc hgrounded hd hcarried htop
  | failed d =>
    cases top with
    | nil => exact absurd ⟨rfl, .inr ⟨d, rfl⟩⟩ hbusy
    | cons p top =>
      have hscope : (p.rename φ).scope? = none := by
        rw [Continuation.scope?_rename, show p.scope? = none from hwithin]
        rfl
      show Mirrored k k' V φ s t (unwind p d (top ++ k) s)
        (unwind (p.rename φ) d (Stack.rename φ top ++ k') t)
      rw [unwind_of_scope hwithin, unwind_of_scope hscope]
      exact mirrored_go hsession (List.forall_mem_nil _) htop.of_cons.2.2

/-! ## Runs -/

variable {c d : Configuration} {n : Nat}

/-- Both come to the stacks at the same time. -/
theorem Mirrors.isOver_iff (h : c.Mirrors k k' V φ d) : d.IsOver k' ↔ c.IsOver k := by
  obtain ⟨hcontrol, -, ⟨top, hstack, hstack', -⟩, -⟩ := h
  have hover : d.stack = k' ↔ c.stack = k := by
    rw [hstack, hstack', List.append_left_eq_self, List.append_left_eq_self, Stack.rename,
      List.map_eq_nil_iff]
  unfold IsOver
  rw [hover, hcontrol]
  refine and_congr Iff.rfl ?_
  cases c.control <;> simp [Control.rename]

/-- The frame that `x` names is there all the time, for `n` steps. -/
def Lasts (n : Nat) (c : Configuration) (x : Handle) : Prop :=
  ∀ m ≤ n, (c.after m).session.arena.Live x

theorem Lasts.of_succ {x : Handle} (h : c.Lasts (n + 1) x) :
    c.Lasts n x ∧ (c.after n).session.arena.Live x ∧ (c.after (n + 1)).session.arena.Live x :=
  ⟨fun m hm => h m (Nat.le_succ_of_le hm), h n (Nat.le_succ n), h (n + 1) (Nat.le_refl _)⟩

/-- **Any number of steps of both**, as long as something remains to be done above the stacks. -/
theorem Mirrors.after {a b : Arena} {R : Set Handle} {there there' : Handle → Prop}
    (h : c.Mirrors k k' V φ d) (hc : c.Sound since kept) (hd : d.Sound since' kept')
    (htraces : Arena.Traces R there there' a b V φ c.session.arena d.session.arena)
    (hbusy : ∀ m < n, ¬ (c.after m).IsOver k) :
    ∃ W ψ, (c.after n).Mirrors k k' W ψ (d.after n) ∧
      Arena.Traces R (fun x => there x ∧ c.Lasts n x) (fun x => there' x ∧ d.Lasts n x) a b W ψ
        (c.after n).session.arena (d.after n).session.arena := by
  induction n with
  | zero => exact ⟨V, φ, h, htraces.mono (fun _ h => h.1) fun _ h => h.1⟩
  | succ n ih =>
    obtain ⟨W, ψ, hmirrors, htrace⟩ := ih fun m hm => hbusy m (Nat.lt_succ_of_lt hm)
    obtain ⟨W', ψ', hmirrors', hlater⟩ :=
      hmirrors.step (hc.after n) (hd.after n) (hbusy n (Nat.lt_succ_self n))
    rw [after_succ_eq_step, after_succ_eq_step]
    refine ⟨W', ψ', hmirrors', htrace.later hlater (fun x hx => ?_) fun x hx => ?_⟩
    · rw [← after_succ_eq_step]
      exact ⟨⟨hx.1, hx.2.of_succ.1⟩, hx.2.of_succ.2⟩
    · rw [← after_succ_eq_step]
      exact ⟨⟨hx.1, hx.2.of_succ.1⟩, hx.2.of_succ.2⟩

end Configuration

end Script
