import Script.Proofs.Machine.Naming
import Script.Proofs.Machine.Sequencing
import Script.Proofs.Session.Soundness

/-!
# Names never leak between frames

A declaration goes to the innermost frame. While an expression is evaluated or a block is executed,
everything that is declared stands in a block or a call that was entered meanwhile, and so goes to
a frame that was not there before.

- `Entered`: scopes that were entered one from the other, and the innermost frame.
- `Configuration.Apart`: the scopes entered above a stack have frames of their own; `Apart.step`.
- `Shielded`, `Configuration.Shields`: whatever is declared above a stack stands in a scope entered
  there; `Shields.step`.
- `after_declare`: a variable whose initializer has ended.
- `names_never_leak`: which names a frame binds after an expression or statement.
-/

namespace Script

/-- The scopes were entered one from the other, the outermost from `base`. The frame of the
innermost is current, or `base` if there is none. -/
inductive Entered (base : Handle) : List Scope → Handle → Prop
  | none : Entered base [] base
  | scope {frame caller : Handle} {calls : Nat} {scopes : List Scope} :
    Entered base scopes caller → Entered base (⟨frame, caller, calls⟩ :: scopes) frame

/-- A part of the stack waits for an operand of an expression. -/
def Continuation.isOperand : Continuation → Bool
  | .assign _ _ => true
  | .unary _ _ => true
  | .binaryLeft _ _ _ => true
  | .binaryRight _ _ _ => true
  | .logicalLeft _ _ => true
  | .logicalRight _ => true
  | .callee _ _ => true
  | .argument _ _ _ _ => true
  | _ => false

/-- Above a stack, an expression is evaluated, or something is done inside a scope that was entered
in the course of this, or a block is about to be entered. -/
inductive Shielded : Control → Stack → Prop
  | calculating {control : Control} {outer : Stack} :
    (∀ st, control ≠ .exec st) → (∀ p ∈ outer, p.isOperand = true) → Shielded control outer
  | inside {control : Control} (inner : Stack) {outer : Stack} {p : Continuation} :
    p.scope?.isSome = true → (∀ p ∈ outer, p.isOperand = true) →
      Shielded control (inner ++ p :: outer)
  | entering (body : List Stmt) : Shielded (.exec (.block body)) []

namespace Configuration

variable {c : Configuration} {k outer top : Stack} {s : Session} {base x : Handle}
  {control : Control}

/-! ## Scopes with frames of their own -/

/-- The scopes entered above `k` were entered one from the other, the outermost from `base`, and
none of them has the frame `x`. -/
def Apart (k : Stack) (base x : Handle) (c : Configuration) : Prop :=
  ∃ top, c.stack = top ++ k ∧ Entered base (Stack.scopes top) c.session.arena.current ∧
    ∀ scope ∈ Stack.scopes top, scope.frame ≠ x

/-- A scope that is entered has a new frame, and one that is left leads back to where it was entered
from. -/
theorem Apart.step (h : c.Apart k base x) (htidy : c.session.arena.Tidy)
    (hlive : c.session.arena.Live x) (hbusy : ¬ c.IsOver k) : c.step.Apart k base x := by
  obtain ⟨top, hstack, hentered, hapart⟩ := h
  obtain ⟨above, hstack'⟩ := stack_step hstack hbusy
  have hchange := (effect_step c).change
  refine ⟨above, hstack', ?_⟩
  -- what the step does to all scopes on the stack it does to those above `k`
  have habove : Stack.scopes c.stack = Stack.scopes top ++ Stack.scopes k := by
    rw [hstack, scopes_append]
  have hafter : Stack.scopes c.step.stack = Stack.scopes above ++ Stack.scopes k := by
    rw [hstack', scopes_append]
  generalize Stack.scopes above = scopes' at hafter ⊢
  generalize Stack.scopes top = scopes at habove hentered hapart
  cases hchange with
  | none arena depth same =>
    rw [habove, hafter] at same
    obtain rfl := List.append_cancel_right same
    exact ⟨arena ▸ hentered, hapart⟩
  | put y name v arena value depth same =>
    rw [habove, hafter] at same
    obtain rfl := List.append_cancel_right same
    exact ⟨arena ▸ hentered, hapart⟩
  | make decl arena depth same =>
    rw [habove, hafter] at same
    obtain rfl := List.append_cancel_right same
    rw [arena, Arena.current_define, Arena.current_closure]
    exact ⟨hentered, hapart⟩
  | enter parent params args calls within arena values depth entered =>
    rw [habove, hafter] at entered
    obtain rfl : scopes' = _ :: scopes := List.append_cancel_right entered
    rw [arena, (Arena.bindParams_eq ..).2.1]
    refine ⟨.scope hentered, List.forall_mem_cons.2 ⟨?_, hapart⟩⟩
    rintro rfl
    exact Arena.not_live_iff.2 (htidy.frame?_pushed parent) hlive
  | leave frame caller calls outside arena told depth left =>
    rw [habove, hafter] at left
    obtain rfl : scopes = _ :: scopes' := List.append_cancel_right left
    rw [arena, Arena.current_leaveFrame]
    refine ⟨?_, (List.forall_mem_cons.1 hapart).2⟩
    generalize c.session.arena.current = current at hentered
    cases hentered with
    | scope hcaller => exact hcaller

theorem apart_start (c : Configuration) (x : Handle) :
    c.Apart c.stack c.session.arena.current x :=
  ⟨[], rfl, .none, fun _ hscope => nomatch hscope⟩

/-- The frame `x` is the innermost one only if no scope is entered. -/
theorem Apart.eq_base (h : c.Apart k base x) (hx : x = c.session.arena.current) :
    x = base ∧ ∃ top, c.stack = top ++ k ∧ Stack.scopes top = [] := by
  obtain ⟨top, hstack, hentered, hapart⟩ := h
  subst hx
  generalize hscopes : Stack.scopes top = scopes at hentered hapart
  generalize c.session.arena.current = current at hentered hapart
  cases hentered with
  | none => exact ⟨rfl, top, hstack, hscopes⟩
  | scope => exact absurd rfl (hapart _ List.mem_cons_self)

/-- As long as something remains to be done above a stack, and a frame that was there from the
beginning is still there, the scopes entered above have other frames. -/
theorem apart_after {n : Nat} (htidy : c.session.arena.Tidy)
    (hbusy : ∀ m < n, ¬ (c.after m).IsOver c.stack)
    (hlive : ∀ m < n, (c.after m).session.arena.Live x) :
    (c.after n).Apart c.stack c.session.arena.current x := by
  induction n with
  | zero => exact apart_start c x
  | succ n ih =>
    have hbefore := ih (fun m hm => hbusy m (Nat.lt_succ_of_lt hm))
      fun m hm => hlive m (Nat.lt_succ_of_lt hm)
    rw [after_succ_eq_step]
    exact hbefore.step (tidy_after htidy n) (hlive n (Nat.lt_succ_self n))
      (hbusy n (Nat.lt_succ_self n))

/-! ## Expressions and blocks declare in scopes of their own -/

variable {x y : Control} {taken put : Stack}

/-- What is done above `k` is shielded from what was there before. -/
def Shields (k : Stack) (c : Configuration) : Prop :=
  ∃ top, c.stack = top ++ k ∧ Shielded c.control top

theorem Awaits.isOperand {e : Expr} {p : Continuation} (h : Awaits x taken e p)
    (hx : ∀ st, x ≠ .exec st) (htaken : ∀ q ∈ taken, q.isOperand = true) : p.isOperand = true := by
  cases h with
  | increment | bodyEnded | incremented => cases htaken _ List.mem_cons_self
  | _ => first | rfl | exact absurd rfl (hx _)

/-- In an expression, a step leads on in the expression, or to a call. -/
theorem Course.shielded (h : Course s x taken y put) (hx : ∀ st, x ≠ .exec st)
    (hall : ∀ p ∈ taken ++ outer, p.isOperand = true) : Shielded y (put ++ outer) := by
  obtain ⟨htaken, houter⟩ := List.forall_mem_append.1 hall
  cases h with
  | awaits hawaits =>
    refine .calculating (fun _ h => nomatch h) (List.forall_mem_cons.2 ⟨?_, houter⟩)
    exact hawaits.isOperand hx htaken
  | runs hruns => cases hruns <;> cases htaken _ List.mem_cons_self
  | block body => exact absurd rfl (hx _)
  | @call o p f args pos hsummons => exact .inside [.sequence f.decl.body] rfl houter
  | badCall => exact .inside [] rfl houter
  | _ => exact .calculating (fun _ h => nomatch h) houter

/-- A step that ends a scope leads back to the expression that the scope was entered from. -/
theorem shields_leave {p : Continuation} (hp : p.scope?.isSome = true)
    (houter : ∀ p ∈ outer, p.isOperand = true)
    (hended : (∃ o, control = .done o) ∨ ∃ d, control = .failed d) :
    Shields k (step ⟨control, p :: (outer ++ k), s⟩) := by
  cases p with
  | leaveBlock frame caller =>
    rcases hended with ⟨o, rfl⟩ | ⟨d, rfl⟩ <;>
      exact ⟨outer, rfl, .calculating (fun _ h => nomatch h) houter⟩
  | leaveCall f frame caller =>
    rcases hended with ⟨o, rfl⟩ | ⟨d, rfl⟩ <;>
      exact ⟨outer, rfl, .calculating (fun _ h => nomatch h) houter⟩
  | _ => cases hp

/-- Inside a scope, a step leaves what is below the scope alone, or ends the scope. -/
theorem shields_inside {inner : Stack} {p : Continuation} (hp : p.scope?.isSome = true)
    (houter : ∀ p ∈ outer, p.isOperand = true) :
    Shields k (step ⟨control, (inner ++ p :: outer) ++ k, s⟩) := by
  -- the scope stays as long as something remains to be done above it
  by_cases hover : IsOver (p :: (outer ++ k)) ⟨control, (inner ++ p :: outer) ++ k, s⟩
  · obtain ⟨hstack, hended⟩ := hover
    have hstack : (inner ++ p :: outer) ++ k = p :: (outer ++ k) := hstack
    rw [hstack]
    exact shields_leave hp houter hended
  · have hstack : (inner ++ p :: outer) ++ k = inner ++ p :: (outer ++ k) := by simp
    obtain ⟨above, habove⟩ := stack_step hstack hover
    refine ⟨above ++ p :: outer, ?_, .inside _ hp houter⟩
    rw [habove]
    simp

/-- **What is shielded stays shielded**, as long as something remains to be done above the stack. -/
theorem Shields.step (h : c.Shields k) (hbusy : ¬ c.IsOver k) : c.step.Shields k := by
  obtain ⟨control, stack, s⟩ := c
  obtain ⟨top, rfl, htop⟩ := h
  cases htop with
  | inside inner hp houter => exact shields_inside hp houter
  | entering body =>
    exact ⟨[.sequence body, .leaveBlock _ _], rfl,
      .inside [.sequence body] rfl fun _ hp => nomatch hp⟩
  | calculating hcontrol houter =>
    obtain ⟨taken, outer, y, put, t, rfl, hcourse, hstep, -⟩ := exists_course rfl hbusy
    rw [hstep]
    exact ⟨put ++ outer, (List.append_assoc ..).symm, hcourse.shielded hcontrol houter⟩

theorem shields_after {n : Nat} (h : c.Shields k) (hbusy : ∀ m < n, ¬ (c.after m).IsOver k) :
    (c.after n).Shields k := by
  induction n with
  | zero => exact h
  | succ n ih =>
    rw [after_succ_eq_step]
    exact (ih fun m hm => hbusy m (Nat.lt_succ_of_lt hm)).step (hbusy n (Nat.lt_succ_self n))

/-- Where no scope was entered, what is shielded declares nothing. -/
theorem Shields.declares_eq_false (h : c.Shields k) (hbusy : ¬ c.IsOver k)
    (hstack : c.stack = top ++ k) (hscopes : Stack.scopes top = []) : c.declares = false := by
  obtain ⟨control, stack, s⟩ := c
  obtain rfl : stack = top ++ k := hstack
  obtain ⟨top', hsame, htop⟩ := h
  obtain rfl : top = top' := List.append_cancel_right hsame
  cases htop with
  | @inside _ inner outer p hp =>
    rw [scopes_append, Stack.scopes_cons] at hscopes
    cases hscope : p.scope? with
    | none => simp [hscope] at hp
    | some scope => simp [hscope] at hscopes
  | entering body => rfl
  | calculating hcontrol houter =>
    cases control with
    | exec st => exact absurd rfl (hcontrol st)
    | eval e => rfl
    | failed d => rfl
    | done o =>
      cases top with
      | nil => exact absurd ⟨rfl, .inl ⟨o, rfl⟩⟩ hbusy
      | cons p outer =>
        have hp := houter p List.mem_cons_self
        cases p <;> first | rfl | cases hp

/-- An expression or a block is shielded from the beginning. -/
theorem shields_start
    (h : (∃ e, c.control = .eval e) ∨ ∃ body, c.control = .exec (.block body)) :
    c.Shields c.stack := by
  refine ⟨[], rfl, ?_⟩
  rcases h with ⟨e, h⟩ | ⟨body, h⟩
  · rw [h]
    exact .calculating (fun _ h => nomatch h) fun _ hp => nomatch hp
  · rw [h]
    exact .entering body

/-! ## Declarations that fail -/

/-- A variable whose initializer has ended is defined in the state that the initializer has left;
if the initializer fails, nothing is done at all. -/
theorem after_declare (name : String) (pos : Position) {e : Expr} {n : Nat}
    (hbusy : ∀ m < n, ¬ (after m ⟨.eval e, k, s⟩).IsOver k)
    (hover : (after n ⟨.eval e, k, s⟩).IsOver k) :
    let t := (after n ⟨.eval e, k, s⟩).session
    let last := after (n + 2) ⟨.exec (.declare name (some e) pos), k, s⟩
    (∀ o, (after n ⟨.eval e, k, s⟩).control = .done o →
      last = defineAt name o.asValue pos k t) ∧
    ∀ d, (after n ⟨.eval e, k, s⟩).control = .failed d → last = ⟨.failed d, k, t⟩ := by
  intro t last
  -- the initializer is evaluated as if nothing waited for it
  have hrebased : Rebased k (.define name pos :: k) ⟨.eval e, k, s⟩
      (step ⟨.exec (.declare name (some e) pos), k, s⟩) := ⟨rfl, rfl, [], rfl, rfl⟩
  obtain ⟨hcontrol, hsession, above, hempty, hstack⟩ := hrebased.after rfl hbusy
  rw [hover.1] at hempty
  obtain rfl : above = [] := by simpa using hempty
  have hlast : last = step ⟨(after n ⟨.eval e, k, s⟩).control, .define name pos :: k, t⟩ := by
    show after (n + 1 + 1) _ = _
    rw [after_succ_eq_step, after_succ]
    exact congrArg step (congr (congr (congrArg Configuration.mk hcontrol) hstack) hsession)
  refine ⟨fun o ho => ?_, fun d hd => ?_⟩
  · rw [hlast, ho]
    rfl
  · rw [hlast, hd]
    rfl

/-- A definition that is refused leaves the session as it was. -/
theorem defineAt_of_refused {name : String} {v : Value} {d : Diagnostic}
    (h : (defineAt name v pos k s).control = .failed d) :
    defineAt name v pos k s = ⟨.failed d, k, s⟩ := by
  unfold defineAt at h ⊢
  rcases Arena.define_cases s.arena name v with ⟨fault, hd⟩ | ⟨-, hd⟩
  · rw [hd] at h ⊢
    exact congrArg (Configuration.mk · k s) h
  · rw [hd] at h
    cases h

/-- A function whose name is taken leaves the variables of every frame as they were. -/
theorem bindings_of_function_refused {decl : FunDecl} {d : Diagnostic}
    (h : (step ⟨.exec (.function decl), k, s⟩).control = .failed d) (x : Handle) :
    ((step ⟨.exec (.function decl), k, s⟩).session.arena.frame? x).map (·.bindings) =
      (s.arena.frame? x).map (·.bindings) := by
  have hstep : step ⟨.exec (.function decl), k, s⟩ =
      defineAt decl.name (.function (s.arena.closure decl).2) decl.pos k
        { s with arena := (s.arena.closure decl).1 } := rfl
  rw [hstep] at h ⊢
  rw [defineAt_of_refused h]
  exact Arena.map_frame?_closure (·.bindings) (fun _ => rfl) x

end Configuration

/-! ## Names stay where they are declared -/

/-- **Names never leak between frames.** In every state of the machine, whatever remains to be done
below, at every moment until the control has ended, whether by itself or by a failure: a frame that
was there at the beginning and has been there since binds the names it bound. It binds no others
while an expression is evaluated or a block is executed. While any statement is executed, only the
frame that was innermost at the beginning may bind others. A variable whose initializer fails is not
defined: the session is what the initializer has left, and so it is if the definition is refused. A
function whose name is taken, and whatever else is refused, leaves the variables of all frames as
they were. -/
theorem names_never_leak :
    (∀ since c, Moment since c → c.session.arena.Tidy) ∧
    (∀ (c : Configuration) (n : Nat) (x : Handle) (f g : Frame), c.session.arena.Tidy →
      (∀ m < n, ¬ (c.after m).IsOver c.stack) → c.session.arena.frame? x = some f →
      (∀ m ≤ n, (c.after m).session.arena.Live x) →
      (c.after n).session.arena.frame? x = some g →
        ((∃ e, c.control = .eval e) ∨ (∃ body, c.control = .exec (.block body)) →
          g.names = f.names) ∧
        ((∃ st, c.control = .exec st) →
          f.names ⊆ g.names ∧ (x ≠ c.session.arena.current → g.names = f.names))) ∧
    (∀ (name : String) (e : Expr) (pos : Position) (k : Stack) (s : Session) (n : Nat),
      (∀ m < n, ¬ (Configuration.after m ⟨.eval e, k, s⟩).IsOver k) →
      (Configuration.after n ⟨.eval e, k, s⟩).IsOver k → ∀ d,
        (Configuration.after (n + 2) ⟨.exec (.declare name (some e) pos), k, s⟩).control =
          .failed d →
        Configuration.after (n + 2) ⟨.exec (.declare name (some e) pos), k, s⟩ =
          ⟨.failed d, k, (Configuration.after n ⟨.eval e, k, s⟩).session⟩) ∧
    (∀ (st : Stmt) (k : Stack) (s : Session) (d : Diagnostic),
      (∃ name pos, st = .declare name none pos) ∨ (∃ decl, st = .function decl) →
      (Configuration.step ⟨.exec st, k, s⟩).control = .failed d → ∀ x,
        ((Configuration.step ⟨.exec st, k, s⟩).session.arena.frame? x).map (·.bindings) =
          (s.arena.frame? x).map (·.bindings)) ∧
    (∀ (a : Arena) (name : String) (v : Value) (fault : Fault),
      (a.define name v).2 = some fault → (a.define name v).1 = a) := by
  refine ⟨fun since c h => (sound_moment h).arena.tidy, ?names, ?initialized, ?declared, ?refused⟩
  case names =>
    intro c n x f g htidy hbusy hf hlive hg
    obtain ⟨hmore, hsame⟩ := Configuration.names_after htidy hf hlive hg
    -- a frame that was there before is innermost only where no scope was entered
    have hbase : ∀ m < n, x = (c.after m).session.arena.current →
        x = c.session.arena.current ∧
          ∃ top, (c.after m).stack = top ++ c.stack ∧ Stack.scopes top = [] := fun m hm =>
      Configuration.Apart.eq_base (Configuration.apart_after htidy
        (fun j hj => hbusy j (Nat.lt_trans hj hm))
        fun j hj => hlive j (Nat.le_of_lt (Nat.lt_trans hj hm)))
    refine ⟨fun hcontrol => hsame ?_, fun _ => ⟨hmore, fun hx => hsame ?_⟩⟩
    · rintro m hm ⟨hdeclares, hcurrent⟩
      obtain ⟨-, top, hstack, hscopes⟩ := hbase m hm hcurrent
      have hshields := Configuration.shields_after (Configuration.shields_start hcontrol)
        fun j hj => hbusy j (Nat.lt_trans hj hm)
      rw [hshields.declares_eq_false (hbusy m hm) hstack hscopes] at hdeclares
      cases hdeclares
    · rintro m hm ⟨-, hcurrent⟩
      exact hx (hbase m hm hcurrent).1
  case initialized =>
    intro name e pos k s n hbusy hover d hd
    obtain ⟨hdone, hfailed⟩ := Configuration.after_declare name pos hbusy hover
    rcases hover.2 with ⟨o, ho⟩ | ⟨d', hd'⟩
    · rw [hdone o ho] at hd ⊢
      exact Configuration.defineAt_of_refused hd
    · rw [hfailed d' hd'] at hd ⊢
      exact congrArg (Configuration.mk · k _) hd
  case declared =>
    rintro st k s d (⟨name, pos, rfl⟩ | ⟨decl, rfl⟩) hd x
    · have hstep : Configuration.step ⟨.exec (.declare name none pos), k, s⟩ =
          ⟨.failed d, k, s⟩ := Configuration.defineAt_of_refused hd
      rw [hstep]
    · exact Configuration.bindings_of_function_refused hd x
  case refused =>
    intro a name v fault hfault
    rcases Arena.define_cases a name v with ⟨_, hd⟩ | ⟨-, hd⟩
    · rw [hd]
    · rw [hd] at hfault
      cases hfault

/-- A block that declares a variable twice, and so fails after the first declaration. -/
def declaresTwice : Stmt := .block [.declare "x" none .start, .declare "x" none .start]

/-- When the block has failed, the frame around it binds no name, as before. -/
theorem names_never_leak_declaresTwice :
    let c : Configuration := ⟨.exec declaresTwice, [], .new (.new none)⟩
    (c.after 7).ended?.isSome = true ∧
      ∃ g, (c.after 7).session.arena.frame? Arena.global = some g ∧ g.names = ∅ := by
  intro c
  have hover : (c.after 7).ended?.isSome = true := by decide +kernel
  have hlive : ∀ m ≤ 7, (c.after m).session.arena.Live Arena.global := by decide +kernel
  have hbusy : ∀ m < 7, ¬ (c.after m).IsOver c.stack := by
    have hended : ∀ d : Configuration, d.IsOver [] → d.ended?.isSome = true := by
      rintro ⟨control, stack, s⟩ ⟨rfl, ⟨o, rfl⟩ | ⟨d, rfl⟩⟩ <;> rfl
    have hnone : ∀ m < 7, (c.after m).ended?.isSome = false := by decide +kernel
    intro m hm h
    exact Bool.false_ne_true ((hnone m hm).symm.trans (hended _ h))
  obtain ⟨g, hg⟩ := hlive 7 (Nat.le_refl 7)
  obtain ⟨htidy, hnames, -⟩ := names_never_leak
  have hc : c.session.arena.Tidy :=
    htidy 0 c ⟨.new (.new none), .exec declaresTwice, c, 0, .new _, rfl, rfl⟩
  have hsame := (hnames c 7 Arena.global ⟨[], none, true⟩ g hc hbusy rfl hlive hg).1
    (.inr ⟨_, rfl⟩)
  refine ⟨hover, g, hg, hsame.trans ?_⟩
  exact Set.eq_empty_of_forall_notMem fun name hname => nomatch hname

end Script
