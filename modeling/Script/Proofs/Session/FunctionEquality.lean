import Script.Proofs.Machine.Declaring
import Script.Proofs.Session.StaticChecks

/-!
# When functions are equal

Functions are compared by the number they were given when they were made. In the run of a program
this comes to the same as comparing where they are declared and which frame they captured, since no
declaration is executed twice in one frame.

- `Configuration.Separate`: no function in circulation was made by a declaration that is due, and
  any two differ in declaration or frame; `Separate.step`.
- `Configuration.ToldApart`: what is promised of every moment.
- `equal_functions_share_declaration_and_frame`: programs that compile keep the promise.
-/

namespace Script

namespace Configuration

variable {program : Program} {c : Configuration} {since : Nat} {kept : Closure → Prop}
  {f g : Closure}

/-- A function is held, or bound by a variable. -/
def Circulates (c : Configuration) (fn : Closure) : Prop :=
  c.Holds fn ∨ c.session.arena.Binds fn

/-- Declarations are due once in each frame, and not in frames where they have been executed and the
function is in circulation. -/
structure Separate (program : Program) (c : Configuration) : Prop where
  stays : c.Stays program
  due : c.due.Nodup
  undue : ∀ fn, c.Circulates fn → (fn.captured, fn.decl.pos) ∉ c.due
  distinct : ∀ f g, c.Circulates f → c.Circulates g →
    (f.identity = g.identity ∨ f.captured = g.captured ∧ f.decl.pos = g.decl.pos) → f = g

/-- The frames in which declarations are due are there. -/
theorem Sound.live_of_due (h : c.Sound since kept) {e : Handle × Position} (he : e ∈ c.due) :
    c.session.arena.Live e.1 := by
  rcases List.mem_append.1 he with he | he
  · obtain ⟨decl, -, rfl⟩ := List.mem_map.1 he
    exact h.arena.current
  · rcases Stack.owner_of_due he with hx | ⟨scope, hscope, hx⟩
    · rw [hx]
      exact h.arena.current
    · rw [hx]
      rcases h.scopes.entered_from scope hscope with hactive | hglobal
      · exact h.arena.active _ hactive
      · rw [hglobal]
        exact h.arena.live_toplevel

theorem Sound.carries (h : c.Sound since kept) {fn : Closure} (hfn : c.Circulates fn) :
    c.session.arena.Carries since fn :=
  h.arena.carries fn (hfn.imp .inl id)

/-- **No declaration is executed twice in a frame** whose functions are in circulation. -/
theorem Separate.step (h : c.Separate program) (hsound : c.Sound since kept)
    (harranged : ∀ s : Stmt, s.Within program → s.Arranged)
    (hprogram : ((Stmt.declarationsEach program).map (·.pos)).Nodup) :
    c.step.Separate program := by
  have htidy := hsound.arena.tidy
  have hstays := h.stays.step htidy
  -- where no function is declared, those in circulation were so before
  have hold (hno : ∀ decl, c.control ≠ .exec (.function decl)) {fn : Closure}
      (hfn : c.step.Circulates fn) : c.Circulates fn := by
    rcases origin_step c htidy hfn with hfn | ⟨decl, hdecl, -⟩
    · exact hfn
    · exact absurd hdecl (hno decl)
  cases dues_step harranged h.stays hsound with
  | fewer hfewer hno =>
    exact ⟨hstays, h.due.sublist hfewer,
      fun fn hfn hmem => h.undue fn (hold hno hfn) (hfewer.subset hmem),
      fun f g hf hg => h.distinct f g (hold hno hf) (hold hno hg)⟩
  | declares decl hdecl hdue =>
    obtain ⟨hfresh, hnodup⟩ := List.nodup_cons.1 (hdue ▸ h.due)
    have hnew {fn : Closure} (hfn : c.step.Circulates fn) :
        c.Circulates fn ∨ fn = (c.session.arena.closure decl).2 := by
      refine (origin_step c htidy hfn).imp id ?_
      rintro ⟨decl', hdecl', rfl⟩
      cases hdecl.symm.trans hdecl'
      rfl
    -- the new function has a new number, and is the only one of its declaration and frame
    have hother {fn : Closure} (hfn : c.Circulates fn) :
        ¬ (fn.identity = c.session.arena.nextFunction ∨
          fn.captured = c.session.arena.current ∧ fn.decl.pos = decl.pos) := by
      rintro (hnumber | ⟨hframe, hpos⟩)
      · exact Nat.ne_of_lt (hsound.carries hfn).numbered hnumber
      · refine h.undue fn hfn ?_
        rw [hdue, hframe, hpos]
        exact List.mem_cons_self
    refine ⟨hstays, hnodup, fun fn hfn hmem => ?_, fun f g hf hg hsame => ?_⟩
    · rcases hnew hfn with hfn | rfl
      · exact h.undue fn hfn (hdue ▸ List.mem_cons_of_mem _ hmem)
      · exact hfresh hmem
    · rcases hnew hf with hf | rfl
      · rcases hnew hg with hg | rfl
        · exact h.distinct f g hf hg hsame
        · exact absurd hsame (hother hf)
      · rcases hnew hg with hg | rfl
        · exact absurd (hsame.imp Eq.symm fun h => ⟨h.1.symm, h.2.symm⟩) (hother hg)
        · rfl
  | enters parent body s rest hs hbody hdue hrest hno =>
    have hdead : ¬ c.session.arena.Live (c.session.arena.push parent).2 :=
      Arena.not_live_iff.2 (htidy.frame?_pushed parent)
    refine ⟨hstays, ?_, fun fn hfn hmem => ?_, fun f g hf hg =>
      h.distinct f g (hold hno hf) (hold hno hg)⟩
    · rw [hdue, List.nodup_append]
      refine ⟨?_, h.due.sublist hrest, ?_⟩
      · have hown := hs.nodup_own hprogram hbody
        rw [List.Nodup, List.pairwise_map] at hown ⊢
        exact hown.imp fun hne heq => hne (Prod.mk.inj heq).2
      · rintro e he e' he' rfl
        obtain ⟨decl, -, rfl⟩ := List.mem_map.1 he
        exact hdead (hsound.live_of_due (hrest.subset he'))
    · rw [hdue] at hmem
      rcases List.mem_append.1 hmem with hmem | hmem
      · obtain ⟨decl, -, heq⟩ := List.mem_map.1 hmem
        refine hdead ?_
        rw [(Prod.mk.inj heq).1]
        exact (hsound.carries (hold hno hfn)).live
      · exact h.undue fn (hold hno hfn) (hrest.subset hmem)

/-- At the start nothing has been declared. -/
theorem separate_launch (hprogram : ((Stmt.declarationsEach program).map (·.pos)).Nodup)
    (policy : Policy) (sink : Sink) (depth : Nat) :
    (launch policy sink depth program).Separate program := by
  have hnone (fn : Closure) : ¬ (launch policy sink depth program).Circulates fn :=
    have hall : (launch policy sink depth program).All fun _ => False := all_launch ..
    fun hfn => hfn.elim (hall.held fn) (hall.bound fn)
  have hstands : (launch policy sink depth program).Stands program :=
    ⟨trivial, List.forall_mem_singleton.2 fun s hs => .top hs⟩
  refine ⟨⟨hstands, all_launch ..⟩, ?_, fun fn hfn => absurd hfn (hnone fn),
    fun f g hf => absurd hf (hnone f)⟩
  have hown := hprogram.sublist ((Stmt.own_sublist program).map (·.pos))
  show (List.map _ (program.filterMap Stmt.own?) ++ []).Nodup
  rw [List.append_nil]
  rw [List.Nodup, List.pairwise_map] at hown ⊢
  exact hown.imp fun hne heq => hne (Prod.mk.inj heq).2

/-- What is promised of the functions in circulation at a moment of a run. -/
structure ToldApart (program : Program) (c : Configuration) : Prop where
  /-- No two function declarations of the program stand at one position. -/
  positions : ((Stmt.declarationsEach program).map (·.pos)).Nodup
  /-- Each function comes from one of them, and the frame that it captured is there. -/
  origin : ∀ fn, fn ∈ c.functions ∨ c.session.arena.Binds fn →
    fn.decl ∈ Stmt.declarationsEach program ∧ c.session.arena.Live fn.captured
  /-- Two are equal exactly if they come from the same declaration and captured the same frame. -/
  same_iff : ∀ f g, f ∈ c.functions ∨ c.session.arena.Binds f →
    g ∈ c.functions ∨ c.session.arena.Binds g →
    ((Value.function f).same (.function g) = true ↔ f.decl = g.decl ∧ f.captured = g.captured)

/-- **Functions are equal exactly if they come from one declaration and captured one frame.**
Whatever text compiles, under whatever rule for defining a name twice, and whatever limit on the
nesting of calls: this holds at every moment of the run, of functions that variables bind and of
those that are held in an expression, a call or a jump. -/
theorem equal_functions_share_declaration_and_frame {source : String} {program : Program}
    (h : compile source = .ok program) (policy : Policy) (sink : Sink) (depth n : Nat) :
    ((launch policy sink depth program).after n).ToldApart program := by
  obtain ⟨hprogram, harranged⟩ := compile_declares h
  have hseparate : ((launch policy sink depth program).after n).Separate program := by
    induction n with
    | zero => exact separate_launch hprogram policy sink depth
    | succ n ih =>
      rw [after_succ_eq_step]
      exact ih.step (sound_moment (moment_launch policy sink depth program n)) harranged hprogram
  have hsound := sound_moment (moment_launch policy sink depth program n)
  have hheld : ((launch policy sink depth program).after n).session.held = [] :=
    (settings_after (launch policy sink depth program) n).held
  generalize (launch policy sink depth program).after n = c at hseparate hsound hheld
  have hcirculates {fn : Closure} (hfn : fn ∈ c.functions ∨ c.session.arena.Binds fn) :
      c.Circulates fn := by
    unfold functions at hfn
    rw [hheld, List.append_nil, List.mem_append] at hfn
    exact hfn
  refine ⟨hprogram, fun fn hfn => ⟨?_, (hsound.carries (hcirculates hfn)).live⟩,
    fun f g hf hg => ⟨fun hsame => ?_, fun ⟨hdecl, hframe⟩ => ?_⟩⟩
  · have hwithin : (Stmt.function fn.decl).Within program :=
      (hcirculates hfn).elim (hseparate.stays.functions.held fn)
        (hseparate.stays.functions.bound fn)
    exact hwithin.mem_declarations
  · have hnumber : f.identity = g.identity := beq_iff_eq.1 hsame
    rw [hseparate.distinct f g (hcirculates hf) (hcirculates hg) (.inl hnumber)]
    exact ⟨rfl, rfl⟩
  · rw [hseparate.distinct f g (hcirculates hf) (hcirculates hg) (.inr ⟨hframe, by rw [hdecl]⟩)]
    exact beq_iff_eq.2 rfl

/-- Where the functions of a variable are declared, and what they captured. -/
def origins (c : Configuration) (name : String) : List (Position × Handle) :=
  ((c.session.arena.get? name).toList.flatMap Value.functions).map fun f => (f.decl.pos, f.captured)

/-- A function that makes a function is called twice. -/
theorem equal_functions_share_declaration_and_frame_madeTwice :
    ∃ program,
      compile "fun make() \x7b fun g() \x7b\x7d return g; \x7d var a = make(); var b = make();" =
        .ok program ∧
      ((launch .strict (.new none) 10 program).after 60).origins "a" = [(⟨1, 14⟩, ⟨1, 0⟩)] ∧
      ((launch .strict (.new none) 10 program).after 60).origins "b" = [(⟨1, 14⟩, ⟨2, 0⟩)] ∧
      ((launch .strict (.new none) 10 program).after 60).ToldApart program := by
  have hmade : Option.any
      (fun program =>
        ((launch .strict (.new none) 10 program).after 60).origins "a" == [(⟨1, 14⟩, ⟨1, 0⟩)] &&
        ((launch .strict (.new none) 10 program).after 60).origins "b" == [(⟨1, 14⟩, ⟨2, 0⟩)])
      (compile "fun make() \x7b fun g() \x7b\x7d return g; \x7d var a = make(); var b = make();"
        ).toOption = true := by decide +kernel
  obtain ⟨program, hprogram, hmade⟩ := (Option.any_eq_true ..).1 hmade
  obtain ⟨ha, hb⟩ := (Bool.and_eq_true_iff ..).1 hmade
  have hcompile := eq_ok_of_toOption_eq_some hprogram
  exact ⟨program, hcompile, beq_iff_eq.1 ha, beq_iff_eq.1 hb,
    equal_functions_share_declaration_and_frame hcompile .strict (.new none) 10 60⟩

end Configuration

end Script
