import Script.Proofs.Arena.Renaming
import Script.Proofs.Machine.Mirroring

/-!
# The machine does not see the names of frames

A machine over an arena that frees frames and a machine over one that keeps them all take the same
steps, as long as no handle of the first dangles. The frames of the first are found in the second
under new names; a scope that is entered adds a name, and nothing that is freed takes one away.

- `Session.Embeds`, `Configuration.Embeds`: one machine is found in the other.
- `Tracks.step`: one step of both; `Tracks.run`: whole runs.
-/

namespace Script

variable {φ ψ : Handle → Handle}

/-! ## One machine found in the other -/

/-- A session is found, under new names of frames, in one that keeps every frame. The functions
held between requests may differ. -/
structure Session.Embeds (φ : Handle → Handle) (s t : Session) : Prop where
  arena : s.arena.Embeds φ t.arena
  sink : t.sink = s.sink
  depth : t.depth = s.depth
  maxDepth : t.maxDepth = s.maxDepth

namespace Configuration

/-- A machine is found, under new names of frames, in one that keeps every frame. -/
structure Embeds (φ : Handle → Handle) (c d : Configuration) : Prop where
  control : d.control = c.control.rename φ
  stack : d.stack = Stack.rename φ c.stack
  session : c.session.Embeds φ d.session

/-- A machine is found in one that keeps every frame, under names that agree with `φ` on the frames
that the functions `kept` captured. -/
def Tracks (kept : Closure → Prop) (φ : Handle → Handle) (c d : Configuration) : Prop :=
  ∃ ψ, c.Embeds ψ d ∧ ∀ fn, kept fn → ψ fn.captured = φ fn.captured

variable {since since' : Nat} {kept kept' : Closure → Prop} {c d : Configuration}

theorem Embeds.tracks (h : c.Embeds φ d) : c.Tracks kept φ d := ⟨φ, h, fun _ _ => rfl⟩

theorem Sound.keeping {control : Control} {k : Stack} {s : Session}
    (h : Sound since kept ⟨control, k, s⟩) : Sound since kept ⟨control, k, s.keeping⟩ :=
  ⟨h.arena.keeping, h.scopes, h.kept⟩

/-! ## Arenas that keep every frame -/

/-- No change makes an arena begin or cease to free frames. -/
theorem Change.reclaims (h : c.Change d) :
    d.session.arena.reclaims = c.session.arena.reclaims := by
  have hdefine (a : Arena) (name : String) (v : Value) :
      (a.define name v).1.reclaims = a.reclaims := by
    rcases Arena.define_cases a name v with ⟨fault, hd⟩ | ⟨-, hd⟩
    · rw [hd]
    · rw [hd]
      rfl
  cases h with
  | none arena => rw [arena]
  | put x name v arena =>
    rw [arena]
    rfl
  | make decl arena => rw [arena, hdefine, Arena.reclaims_closure]
  | enter parent params args calls within arena =>
    rw [arena]
    refine Arena.bindParams_induction (P := fun a => a.reclaims = c.session.arena.reclaims) params
      (fun a name v _ ha => (hdefine a name v).trans ha) (Arena.reclaims_push ..)
  | leave frame caller calls outside arena =>
    rw [arena]
    exact Arena.reclaims_release (c.session.arena.enter caller) frame outside

/-- A frame that is new belongs to a scope that was entered. -/
theorem Change.live (h : c.Change d) (hc : c.session.arena.Tidy) {x : Handle}
    (hx : d.session.arena.Live x) :
    c.session.arena.Live x ∨ ∃ scope ∈ Stack.scopes d.stack, scope.frame = x := by
  cases h with
  | none arena => exact .inl (arena ▸ hx)
  | put y name v arena =>
    rw [arena] at hx
    exact .inl (Arena.live_put_iff.1 hx)
  | make decl arena =>
    rw [arena] at hx
    exact .inl (Arena.live_closure_iff.1 (Arena.live_define_iff.1 hx))
  | enter parent params args calls within arena values depth scopes =>
    rw [arena, Arena.live_bindParams_iff] at hx
    rcases (hc.live_push_iff parent).1 hx with rfl | hold
    · rw [scopes]
      exact .inr ⟨_, List.mem_cons_self, rfl⟩
    · exact .inl hold
  | leave frame caller calls outside arena =>
    rw [arena] at hx
    exact .inl ((Arena.within_release (c.session.arena.enter caller) frame outside).live hx)

/-- An arena that keeps every frame has all its frames after a change. -/
theorem Change.keeps (h : c.Change d) (hc : c.session.arena.Tidy)
    (hkeeps : c.session.arena.reclaims = false) {x : Handle} (hx : c.session.arena.Live x) :
    d.session.arena.Live x := by
  cases h with
  | none arena => exact arena ▸ hx
  | put y name v arena =>
    rw [arena]
    exact Arena.live_put_iff.2 hx
  | make decl arena =>
    rw [arena]
    exact Arena.live_define_iff.2 (Arena.live_closure_iff.2 hx)
  | enter parent params args calls within arena =>
    rw [arena, Arena.live_bindParams_iff]
    exact (hc.live_push_iff parent).2 (.inr hx)
  | leave frame caller calls outside arena =>
    rw [arena]
    obtain ⟨f, hf⟩ := hx
    have hsame := Arena.frame?_release_of_keeps (b := c.session.arena.enter caller) hkeeps frame x
      outside
    exact ⟨f, hsame.trans hf⟩

/-! ## Steps -/

/-- A machine without dangling handles is one with the machine that keeps every frame. -/
theorem Embeds.mirrors (h : c.Embeds φ d) (hc : c.Sound since kept) :
    c.Mirrors [] [] {x | c.session.arena.Live x} φ d where
  control := h.control
  carried fn hfn := hc.live.1 fn (.inl hfn)
  stack := by
    refine ⟨c.stack, (List.append_nil _).symm, ?_, ?_⟩
    · rw [h.stack, List.append_nil]
    · exact ⟨fun fn hfn => hc.live.1 fn (.inr hfn), hc.live.2⟩
  session := ⟨h.session.arena.mirrors hc.arena, h.session.sink, h.session.depth, h.session.maxDepth⟩

/-- The active frames have their new names, if those of the scopes on the stack have, and those that
will be active after them. -/
theorem Sound.active_rename (hc : c.Sound since kept) (hd : d.Sound since' kept')
    (hstack : d.stack = Stack.rename φ c.stack) :
    d.session.arena.active = c.session.arena.active.map φ ↔
      (d.restores (Stack.scopes d.stack)).active =
        (c.restores (Stack.scopes c.stack)).active.map φ := by
  have hscopes : (Stack.scopes d.stack).map Scope.frame =
      ((Stack.scopes c.stack).map Scope.frame).map φ := by
    rw [hstack, Stack.scopes_rename, List.map_map, List.map_map]
    rfl
  rw [hc.active_eq, hd.active_eq, hscopes, List.map_append, List.append_cancel_left_eq]

theorem IsOver.step_eq (h : c.IsOver []) : c.step = c := by
  obtain ⟨control, stack, s⟩ := c
  obtain ⟨hstack, hcontrol⟩ := h
  obtain rfl : stack = [] := hstack
  rcases hcontrol with ⟨o, hcontrol⟩ | ⟨d, hcontrol⟩
  · obtain rfl : control = .done o := hcontrol
    rfl
  · obtain rfl : control = .failed d := hcontrol
    rfl

/-- One step of both, from names that are given. -/
theorem Embeds.step (h : c.Embeds φ d) (hc : c.Sound since kept) (hd : d.Sound since' kept') :
    c.step.Tracks kept φ d.step := by
  by_cases hover : c.IsOver []
  · have hover' : d.IsOver [] := (h.mirrors hc).isOver_iff.2 hover
    rw [hover.step_eq, hover'.step_eq]
    exact h.tracks
  obtain ⟨W, ψ, hmirrors, hlater⟩ := (h.mirrors hc).step hc hd hover
  obtain ⟨top, hstack, hstack', htop⟩ := hmirrors.stack
  rw [List.append_nil] at hstack hstack'
  subst hstack
  have hchange := (effect_step c).change
  have hchange' := (effect_step d).change
  -- every frame is found: an old one because it is kept there, a new one as that of a scope
  have hall : ∀ x, c.step.session.arena.Live x → x ∈ W := by
    intro x hx
    rcases hchange.live hc.arena.tidy hx with hold | ⟨scope, hscope, rfl⟩
    · refine hlater.keeps x hold hx (hchange'.keeps hd.arena.tidy h.session.arena.keeps ?_)
      exact ((h.mirrors hc).session.arena.live hold).2
    · exact (htop.scopes scope hscope).1
  have hactive : d.step.session.arena.active = c.step.session.arena.active.map ψ := by
    rw [hc.step.active_rename hd.step hstack', restores_step, restores_step,
      (hc.active_rename hd h.stack).1 h.session.arena.active]
    refine List.map_congr_left fun x hx => (hlater.names x (hc.arena.active x ?_)).symm
    rw [hc.active_eq]
    exact List.mem_append_right _ hx
  have harena : c.step.session.arena.Embeds ψ d.step.session.arena :=
    { keeps := hchange'.reclaims.trans h.session.arena.keeps
      tidy := hd.step.arena.tidy
      frame := by
        intro x f hf
        obtain ⟨g, hg, hg', -⟩ := hmirrors.session.arena.frame x (hall x ⟨f, hf⟩)
        obtain rfl := Option.some.inj (hf.symm.trans hg)
        exact hg'
      injective := fun x y hx hy => hmirrors.session.arena.injective (hall x hx) (hall y hy)
      toplevel := (hlater.names _ hc.arena.live_toplevel).trans h.session.arena.toplevel
      current := hmirrors.session.arena.current
      active := hactive
      nextFunction := hmirrors.session.arena.nextFunction
      policy := hmirrors.session.arena.policy }
  refine ⟨ψ, ⟨hmirrors.control, hstack', harena, hmirrors.session.sink, hmirrors.session.depth,
    hmirrors.session.maxDepth⟩, fun fn hfn => hlater.names _ ?_⟩
  exact (hc.arena.carries fn (.inl (.inr hfn))).live

/-- **One step of both**: the machine that frees frames and the one that keeps them do the same. -/
theorem Tracks.step (h : c.Tracks kept φ d) (hc : c.Sound since kept) (hd : d.Sound since' kept') :
    c.step.Tracks kept φ d.step := by
  obtain ⟨ψ, hψ, hagree⟩ := h
  obtain ⟨χ, hχ, hagree'⟩ := hψ.step hc hd
  exact ⟨χ, hχ, fun fn hfn => (hagree' fn hfn).trans (hagree fn hfn)⟩

/-- Any number of steps of both. -/
theorem Tracks.after (h : c.Tracks kept φ d) (hc : c.Sound since kept) (hd : d.Sound since' kept')
    (n : Nat) : (c.after n).Tracks kept φ (d.after n) := by
  induction n generalizing c d with
  | zero => exact h
  | succ n ih => exact ih (h.step hc hd) hc.step hd.step

/-- An end of a run is found in another one under the names `ψ`. -/
structure SameEnd (ψ : Handle → Handle) (r r' : Except Diagnostic Outcome × Session) : Prop where
  outcome : r'.1 = r.1.map (Outcome.rename ψ)
  session : r.2.Embeds ψ r'.2

/-- Both have ended, with the same up to the names of frames, or neither has. -/
theorem Embeds.ended? (h : c.Embeds ψ d) : Option.Rel (SameEnd ψ) c.ended? d.ended? := by
  obtain ⟨hcontrol, hstack, hs⟩ := h
  obtain ⟨control, k, s⟩ := c
  obtain ⟨control', k', t⟩ := d
  simp only at hcontrol hstack hs
  subst hcontrol hstack
  cases k with
  | nil =>
    cases control with
    | done o => exact .some ⟨rfl, hs⟩
    | failed d => exact .some ⟨rfl, hs⟩
    | eval e => exact .none
    | exec st => exact .none
  | cons p k => cases control <;> exact .none

/-- **Whole runs of both** end with the same up to the names of frames, or do not end. -/
theorem Tracks.run (h : c.Tracks kept φ d) (hc : c.Sound since kept) (hd : d.Sound since' kept')
    (n : Nat) :
    ∃ ψ, Option.Rel (SameEnd ψ) (c.run n) (d.run n) ∧
      ∀ fn, kept fn → ψ fn.captured = φ fn.captured := by
  rw [run_eq_after, run_eq_after]
  obtain ⟨ψ, hψ, hagree⟩ := h.after hc hd n
  exact ⟨ψ, hψ.ended?, hagree⟩

end Configuration

end Script
