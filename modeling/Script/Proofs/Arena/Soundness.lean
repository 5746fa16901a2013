import Script.Proofs.Arena.Collection
import Script.Proofs.Arena.Variables

/-!
# Arenas without dangling handles

A frame is freed when its scope ends, when frames are collected, or when a failure leaves its
scope, while handles are copied into functions, parents and the stack of the program. That no copy
outlives its frame needs more than the absence of dangling handles.

- `Arena.Carries`: a function was made here, and the frame it captured is there.
- `Arena.Sound`: the invariant. Pinned frames have pinned parents, frames that are not pinned are
  active, and no active frame is inside a later one.
- `sound_new`, `Sound.pushed`, `Sound.put`, `Sound.closure`, `Sound.release`: what the operations of
  a running program keep.
-/

namespace Script.Arena

variable {a : Arena} {since : Nat} {held held' : Closure → Prop} {x y p frame caller : Handle}
  {f : Frame} {fn : Closure} {name : String} {v : Value} {older : List Handle}
  {outside : List Closure}

/-! ## The invariant -/

/-- A function was made in this arena, as number `since` or later, and the frame that it captured
is there and pinned. -/
structure Carries (a : Arena) (since : Nat) (fn : Closure) : Prop where
  known : fn ∈ a.known
  since : since ≤ fn.identity
  numbered : fn.identity < a.nextFunction
  captured : ∃ f, a.frame? fn.captured = some f ∧ f.pinned = true

/-- No handle dangles in an arena whose functions are numbered from `since` on, nor in the
functions `held` outside of it. -/
structure Sound (a : Arena) (since : Nat) (held : Closure → Prop) : Prop where
  tidy : a.Tidy
  grounded : a.Grounded
  toplevel : ∃ f, a.frame? global = some f ∧ f.pinned = true
  current : a.Live a.current
  active : ∀ x ∈ a.active, a.Live x
  distinct : a.active.Nodup
  inner : global ∉ a.active
  /-- No active frame is inside one that was pushed later. -/
  nested : a.active.Pairwise fun newer older =>
    ∀ f, a.frame? older = some f → f.parent ≠ some newer
  /-- A frame that is not pinned is freed when its scope ends. -/
  unpinned : a.reclaims = true → ∀ x f, a.frame? x = some f → f.pinned = false → x ∈ a.active
  parent : ∀ x f p, a.frame? x = some f → f.parent = some p →
    ∃ g, a.frame? p = some g ∧ (f.pinned = true → g.pinned = true)
  numbered : since ≤ a.nextFunction
  carries : ∀ fn, held fn ∨ a.Binds fn → a.Carries since fn

theorem Carries.live (h : a.Carries since fn) : a.Live fn.captured :=
  h.captured.imp fun _ hf => hf.1

/-- What a frame refers to is there. -/
theorem Sound.live_link (h : a.Sound since held) (hf : a.frame? x = some f) :
    ∀ y ∈ f.links, a.Live y := by
  intro y hy
  rcases List.mem_append.1 hy with hy | hy
  · exact (h.parent x f y hf (Option.mem_toList.1 hy)).imp fun _ hg => hg.1
  · obtain ⟨fn, hfn, rfl⟩ := List.mem_map.1 hy
    exact (h.carries fn (.inr ⟨x, f, hf, hfn⟩)).live

/-- Functions that are no longer held, or bound in a frame, need no holder. -/
theorem Sound.mono (h : a.Sound since held) (hheld : ∀ fn, held' fn → held fn ∨ a.Binds fn) :
    a.Sound since held' :=
  { h with
    carries := fun fn hfn => h.carries fn (hfn.elim (hheld fn) .inr) }

theorem Sound.live_toplevel (h : a.Sound since held) : a.Live global :=
  h.toplevel.imp fun _ hf => hf.1

/-- The frames of an arena with the top-level frame only are in order. -/
theorem sound_new (policy : Policy) (n : Nat) (reclaims : Bool) :
    ({ new policy n with reclaims := reclaims } : Arena).Sound n fun _ => False := by
  have hframe : ∀ x, ({ new policy n with reclaims := reclaims } : Arena).frame? x =
      if x = global then some ⟨[], none, true⟩ else none := frame?_new policy n
  have hcontents : ∀ x f, ({ new policy n with reclaims := reclaims } : Arena).frame? x = some f →
      f = ⟨[], none, true⟩ := by
    intro x f hf
    rw [hframe] at hf
    split at hf
    · exact (Option.some.inj hf).symm
    · cases hf
  refine
    { tidy := (tidy_new policy n).congr rfl rfl
      grounded := (grounded_new policy n).of_parents fun _ => rfl
      toplevel := ⟨_, (hframe global).trans (if_pos rfl), rfl⟩
      current := ⟨_, (hframe global).trans (if_pos rfl)⟩
      active := fun x hx => nomatch hx
      distinct := List.nodup_nil
      inner := fun h => nomatch h
      nested := .nil
      unpinned := fun _ x f hf hpinned => ?_
      parent := fun x f p hf hparent => ?_
      numbered := Nat.le_refl n
      carries := ?_ }
  · rw [hcontents x f hf] at hpinned
    cases hpinned
  · rw [hcontents x f hf] at hparent
    cases hparent
  · rintro fn (hfn | ⟨x, f, hf, hfn⟩)
    · exact hfn.elim
    · rw [hcontents x f hf] at hfn
      cases hfn

/-! ## Entering scopes -/

theorem Sound.enter (h : a.Sound since held) (hx : a.Live x) : (a.enter x).Sound since held :=
  { h with
    tidy := h.tidy.congr rfl rfl
    grounded := h.grounded.of_parents fun _ => rfl
    current := hx
    carries := fun fn hfn =>
      have hold := h.carries fn hfn
      ⟨hold.known, hold.since, hold.numbered, hold.captured⟩ }

/-- A new frame inside one that is there. -/
theorem Sound.push (h : a.Sound since held) (hp : a.Live p) : (a.push p).1.Sound since held := by
  have hnew : ∀ {x}, a.Live x → x ≠ (a.push p).2 := by
    rintro x ⟨f, hf⟩ rfl
    rw [h.tidy.frame?_pushed p] at hf
    cases hf
  have hold : ∀ {x f}, a.frame? x = some f → (a.push p).1.frame? x = some f := by
    intro x f hf
    rw [h.tidy.frame?_push, if_neg (hnew ⟨f, hf⟩), hf]
  have hlive : ∀ {x}, a.Live x → (a.push p).1.Live x := fun ⟨f, hf⟩ => ⟨f, hold hf⟩
  have hparents : ∀ x f, a.frame? x = some f → f.parent ≠ some (a.push p).2 := by
    intro x f hf hparent
    obtain ⟨g, hg, -⟩ := h.parent x f _ hf hparent
    exact hnew ⟨g, hg⟩ rfl
  have hframe := h.tidy.frame?_push p
  refine
    { tidy := h.tidy.push p
      grounded := h.grounded.push h.tidy (hnew hp) hparents
      toplevel := h.toplevel.imp fun f hf => ⟨hold hf.1, hf.2⟩
      current := by rw [current_push]; exact hlive h.current
      active := ?active
      distinct := ?distinct
      inner := ?inner
      nested := ?nested
      unpinned := ?unpinned
      parent := ?parent
      numbered := by rw [nextFunction_push]; exact h.numbered
      carries := ?carries }
  case active =>
    intro x hx
    rw [active_push, List.mem_cons] at hx
    rcases hx with rfl | hx
    · exact ⟨_, (hframe _).trans (if_pos rfl)⟩
    · exact hlive (h.active x hx)
  case distinct =>
    rw [active_push, List.nodup_cons]
    exact ⟨fun hmem => hnew (h.active _ hmem) rfl, h.distinct⟩
  case inner =>
    rw [active_push, List.mem_cons]
    rintro (heq | hmem)
    · exact hnew h.live_toplevel heq
    · exact h.inner hmem
  case nested =>
    -- the new frame is the latest, and none of the others is inside it
    rw [active_push, List.pairwise_cons]
    refine ⟨fun x hx f hf => ?_, h.nested.imp_of_mem fun {newer x} _ hx hold f hf => ?_⟩
    · rw [hframe, if_neg (hnew (h.active x hx))] at hf
      exact hparents x f hf
    · rw [hframe, if_neg (hnew (h.active x hx))] at hf
      exact hold f hf
  case unpinned =>
    intro hreclaims x f hf hpinned
    rw [reclaims_push] at hreclaims
    rw [active_push, List.mem_cons]
    rw [hframe] at hf
    split at hf
    · exact .inl ‹_›
    · exact .inr (h.unpinned hreclaims x f hf hpinned)
  case parent =>
    intro x f q hf hparent
    rw [hframe] at hf
    split at hf
    · obtain rfl := Option.some.inj hf
      obtain rfl := Option.some.inj hparent
      obtain ⟨g, hg⟩ := hp
      exact ⟨g, hold hg, fun hpinned => nomatch hpinned⟩
    · obtain ⟨g, hg, hpinned⟩ := h.parent x f q hf hparent
      exact ⟨g, hold hg, hpinned⟩
  case carries =>
    intro fn hfn
    have hcarries := h.carries fn (hfn.imp id (h.tidy.binds_push p))
    exact ⟨by rw [known_push]; exact hcarries.known, hcarries.since,
      by rw [nextFunction_push]; exact hcarries.numbered,
      hcarries.captured.imp fun f hf => ⟨hold hf.1, hf.2⟩⟩

/-- A new innermost scope inside a frame that is there. -/
theorem Sound.pushed (h : a.Sound since held) (hp : a.Live p) :
    ((a.push p).1.enter (a.push p).2).Sound since held := by
  refine (h.push hp).enter ((h.push hp).active _ ?_)
  rw [active_push]
  exact List.mem_cons_self

/-! ## Variables and functions -/

theorem Sound.put (h : a.Sound since held) (hv : ∀ fn ∈ v.functions, held fn ∨ a.Binds fn)
    (x : Handle) (name : String) : (a.put x name v).Sound since held := by
  have hlive : ∀ {y}, a.Live y → (a.put x name v).Live y := live_put_iff.2
  -- parents and pins of the frames after are those of the frames before
  have hold : ∀ {y f}, (a.put x name v).frame? y = some f →
      ∃ g, a.frame? y = some g ∧ f.parent = g.parent ∧ f.pinned = g.pinned := by
    intro y f hf
    rw [frame?_put] at hf
    split at hf
    · rename_i hy
      obtain ⟨g, hg, rfl⟩ := Option.map_eq_some_iff.1 hf
      exact ⟨g, hy ▸ hg, rfl, rfl⟩
    · exact ⟨f, hf, rfl, rfl⟩
  have hpinned : ∀ {y f}, a.frame? y = some f →
      ∃ g, (a.put x name v).frame? y = some g ∧ g.pinned = f.pinned := by
    intro y f hf
    obtain ⟨g, hg⟩ := hlive ⟨f, hf⟩
    obtain ⟨f', hf', -, hsame⟩ := hold hg
    obtain rfl := Option.some.inj (hf.symm.trans hf')
    exact ⟨g, hg, hsame⟩
  refine
    { tidy := h.tidy.put x name v
      grounded := h.grounded.put x name v
      toplevel := ?toplevel
      current := hlive h.current
      active := fun y hy => hlive (h.active y hy)
      distinct := h.distinct
      inner := h.inner
      nested := ?nested
      unpinned := ?unpinned
      parent := ?parent
      numbered := h.numbered
      carries := ?carries }
  case toplevel =>
    obtain ⟨f, hf, hpin⟩ := h.toplevel
    obtain ⟨g, hg, hsame⟩ := hpinned hf
    exact ⟨g, hg, hsame.trans hpin⟩
  case nested =>
    refine h.nested.imp fun {newer y} hne f hf => ?_
    obtain ⟨g, hg, hparent, -⟩ := hold hf
    rw [hparent]
    exact hne g hg
  case unpinned =>
    intro hreclaims y f hf hpin
    obtain ⟨g, hg, -, hsame⟩ := hold hf
    exact h.unpinned hreclaims y g hg (hsame ▸ hpin)
  case parent =>
    intro y f p hf hparent
    obtain ⟨g, hg, hsame, hsame'⟩ := hold hf
    obtain ⟨q, hq, himp⟩ := h.parent y g p hg (hsame ▸ hparent)
    obtain ⟨r, hr, hr'⟩ := hpinned hq
    exact ⟨r, hr, fun hpin => hr'.trans (himp (hsame' ▸ hpin))⟩
  case carries =>
    intro fn hfn
    have hcarries : a.Carries since fn := by
      rcases hfn with hfn | hfn
      · exact h.carries fn (.inl hfn)
      · rcases binds_put hfn with hfn | hfn
        · exact h.carries fn (.inr hfn)
        · exact h.carries fn (hv fn hfn)
    obtain ⟨f, hf, hpin⟩ := hcarries.captured
    obtain ⟨g, hg, hsame⟩ := hpinned hf
    exact ⟨hcarries.known, hcarries.since, hcarries.numbered, g, hg, hsame.trans hpin⟩

/-- A definition in a frame that is there can fail only because the name is taken. -/
theorem define_ne_undefined (h : a.Live a.current) (name other : String) (v : Value) :
    (a.define name v).2 ≠ some (.undefined other) := by
  obtain ⟨f, hf⟩ := h
  unfold define
  rw [hf]
  by_cases hname : (a.policy = .strict && f.binds name) = true
  · simp [hname]
  · simp [hname]

theorem live_define_iff : (a.define name v).1.Live x ↔ a.Live x := by
  rcases define_cases a name v with ⟨fault, hd⟩ | ⟨-, hd⟩
  · rw [hd]
  · rw [hd]
    exact live_put_iff

theorem Sound.define (h : a.Sound since held) (hv : ∀ fn ∈ v.functions, held fn ∨ a.Binds fn)
    (name : String) : (a.define name v).1.Sound since held := by
  rcases define_cases a name v with ⟨fault, hd⟩ | ⟨-, hd⟩
  · rw [hd]
    exact h
  · rw [hd]
    exact h.put hv a.current name

/-- A new function captures the innermost scope, which is pinned from then on together with the
scopes around it. -/
theorem Sound.closure (h : a.Sound since held) (decl : FunDecl) :
    (a.closure decl).1.Sound since fun fn => held fn ∨ fn = (a.closure decl).2 := by
  have hframe := frame?_closure a decl
  have hlive : ∀ {y}, a.Live y → (a.closure decl).1.Live y := live_closure_iff.2
  have hold : ∀ {y f}, (a.closure decl).1.frame? y = some f →
      ∃ g, a.frame? y = some g ∧ f.parent = g.parent ∧ (g.pinned = true → f.pinned = true) := by
    intro y f hf
    rw [hframe] at hf
    obtain ⟨g, hg, rfl⟩ := Option.map_eq_some_iff.1 hf
    by_cases hy : y ∈ a.unpinnedScopes
    · exact ⟨g, hg, by rw [if_pos hy]; rfl, fun _ => by rw [if_pos hy]; rfl⟩
    · exact ⟨g, hg, by rw [if_neg hy], fun hpin => by rwa [if_neg hy]⟩
  have hpinned : ∀ {y f}, a.frame? y = some f → f.pinned = true ∨ y ∈ a.unpinnedScopes →
      ∃ g, (a.closure decl).1.frame? y = some g ∧ g.pinned = true := by
    intro y f hf hy
    rw [hframe, hf, Option.map_some]
    by_cases hmem : y ∈ a.unpinnedScopes
    · exact ⟨_, rfl, by rw [if_pos hmem]; rfl⟩
    · exact ⟨_, rfl, by rw [if_neg hmem]; exact hy.resolve_right hmem⟩
  -- the scopes that are pinned now: the innermost one, and the parent of each of them
  obtain ⟨l, hl⟩ := h.grounded a.current
  have hscopes : a.unpinnedScopes = (l.takeWhile fun link => !link.2.pinned).map (·.1) := by
    rw [unpinnedScopes, chain_eq_of_walk hl]
  obtain ⟨hfirst, hnext⟩ := hl.unpinned_closed
  rw [← hscopes] at hfirst hnext
  refine
    { tidy := h.tidy.closure decl
      grounded := h.grounded.closure decl
      toplevel := ?toplevel
      current := by rw [current_closure]; exact hlive h.current
      active := fun y hy => hlive (h.active y (by rwa [active_closure] at hy))
      distinct := by rw [active_closure]; exact h.distinct
      inner := by rw [active_closure]; exact h.inner
      nested := ?nested
      unpinned := ?unpinned
      parent := ?parent
      numbered := Nat.le_succ_of_le h.numbered
      carries := ?carries }
  case toplevel =>
    obtain ⟨f, hf, hpin⟩ := h.toplevel
    exact hpinned hf (.inl hpin)
  case nested =>
    rw [active_closure]
    refine h.nested.imp fun {newer y} hne f hf => ?_
    obtain ⟨g, hg, hparent, -⟩ := hold hf
    rw [hparent]
    exact hne g hg
  case unpinned =>
    intro hreclaims y f hf hpin
    obtain ⟨g, hg, -, himp⟩ := hold hf
    rw [active_closure]
    refine h.unpinned (by rwa [reclaims_closure] at hreclaims) y g hg ?_
    exact Bool.eq_false_iff.2 fun hg => absurd (himp hg) (by simp [hpin])
  case parent =>
    intro y f p hf hparent
    rw [hframe] at hf
    obtain ⟨g, hg, rfl⟩ := Option.map_eq_some_iff.1 hf
    -- the parent of a scope that is pinned now was pinned before or is pinned now too
    by_cases hy : y ∈ a.unpinnedScopes
    · rw [if_pos hy] at hparent ⊢
      obtain ⟨q, hq, -⟩ := h.parent y g p hg hparent
      obtain ⟨r, hr, hr'⟩ := hpinned hq (hnext y hy g p q hg hparent hq)
      exact ⟨r, hr, fun _ => hr'⟩
    · rw [if_neg hy] at hparent ⊢
      obtain ⟨q, hq, himp⟩ := h.parent y g p hg hparent
      obtain ⟨r, hr⟩ := hlive ⟨q, hq⟩
      refine ⟨r, hr, fun hpin => ?_⟩
      obtain ⟨r', hr', hpin'⟩ := hpinned hq (.inl (himp hpin))
      obtain rfl := Option.some.inj (hr.symm.trans hr')
      exact hpin'
  case carries =>
    have hcarries : ∀ fn, held fn ∨ a.Binds fn → (a.closure decl).1.Carries since fn := by
      intro fn hfn
      obtain ⟨hknown, hsince, hnumbered, f, hf, hpin⟩ := h.carries fn hfn
      exact ⟨by rw [known_closure]; exact List.mem_cons_of_mem _ hknown, hsince,
        Nat.lt_succ_of_lt hnumbered, hpinned hf (.inl hpin)⟩
    rintro fn ((hfn | rfl) | hfn)
    · exact hcarries fn (.inl hfn)
    · obtain ⟨f, hf⟩ := h.current
      exact ⟨by rw [known_closure]; exact List.mem_cons_self, h.numbered, Nat.lt_succ_self _,
        hpinned hf (hfirst _ f rfl hf)⟩
    · exact hcarries fn (.inr (binds_closure hfn))

/-! ## Leaving scopes -/

/-- What outlives the end of a scope: every frame but that of the scope, and that one too if it is
pinned. -/
theorem frame?_retire_of_pinned (hf : a.frame? y = some f)
    (hkeep : y ≠ x ∨ f.pinned = true ∨ a.reclaims = false) : (a.retire x).frame? y = some f := by
  by_cases hy : y = x
  · subst hy
    rcases retire_cases a y with ⟨-, h⟩ | ⟨g, -, -, h⟩ | ⟨g, hg, hpinned, h⟩
    · rw [h]
      exact hf
    · rw [h]
      exact hf
    · obtain rfl := Option.some.inj (hf.symm.trans hg)
      rcases hkeep with hne | hpin | hkeeps
      · exact absurd rfl hne
      · rw [hpinned] at hpin
        cases hpin
      · rw [h, freeSlot_of_keeps (a := { a with active := a.active.erase y }) hkeeps]
        exact hf
  · exact frame?_retire_of_ne hf hy

/-- An arena that frees frames frees the one of the scope that ends, unless it is pinned. -/
theorem pinned_of_frame?_retire (hreclaims : a.reclaims = true)
    (hf : (a.retire x).frame? x = some f) : f.pinned = true := by
  have hbefore := within_retire a x x f hf
  rcases retire_cases a x with ⟨hnone, -⟩ | ⟨g, hg, hpinned, -⟩ | ⟨g, -, -, h⟩
  · rw [hnone] at hbefore
    cases hbefore
  · obtain rfl := Option.some.inj (hbefore.symm.trans hg)
    exact hpinned
  · rw [h, frame?_freeSlot (a := { a with active := a.active.erase x }) hreclaims,
      if_pos rfl] at hf
    cases hf

/-- The innermost scope but one ends: nothing refers to its frame, unless that is pinned. -/
theorem Sound.retire (h : a.Sound since held) (hactive : a.active = x :: older)
    (hcurrent : a.current ≠ x) : (a.retire x).Sound since held := by
  have hwithin := within_retire a x
  have hdistinct : x ∉ older ∧ older.Nodup := List.nodup_cons.1 (hactive ▸ h.distinct)
  have hpairs := List.pairwise_cons.1 (hactive ▸ h.nested)
  have holder : (a.retire x).active = older := by
    rw [active_retire, hactive, List.erase_cons_head]
  have hlive : ∀ {y}, a.Live y → y ≠ x → (a.retire x).Live y := fun ⟨f, hf⟩ hy =>
    ⟨f, frame?_retire_of_pinned hf (.inl hy)⟩
  refine
    { tidy := h.tidy.retire x
      grounded := h.grounded.within hwithin
      toplevel := ?toplevel
      current := ?current
      active := ?active
      distinct := holder ▸ hdistinct.2
      inner := fun hmem => h.inner (hactive ▸ List.mem_cons_of_mem _ (holder ▸ hmem))
      nested := ?nested
      unpinned := ?unpinned
      parent := ?parent
      numbered := by rw [nextFunction_retire]; exact h.numbered
      carries := ?carries }
  case toplevel =>
    exact h.toplevel.imp fun f hf => ⟨frame?_retire_of_pinned hf.1 (.inr (.inl hf.2)), hf.2⟩
  case current =>
    rw [current_retire]
    exact hlive h.current hcurrent
  case active =>
    intro y hy
    rw [holder] at hy
    exact hlive (h.active y (hactive ▸ List.mem_cons_of_mem _ hy)) fun heq => hdistinct.1 (heq ▸ hy)
  case nested =>
    rw [holder]
    exact hpairs.2.imp fun hne f hf => hne f (hwithin _ f hf)
  case unpinned =>
    intro hreclaims y f hf hpin
    rw [reclaims_retire] at hreclaims
    rw [holder]
    -- an unpinned frame that is left was active, and is not the one freed
    have hmem := h.unpinned hreclaims y f (hwithin y f hf) hpin
    rw [hactive, List.mem_cons] at hmem
    refine hmem.resolve_left ?_
    rintro rfl
    rw [pinned_of_frame?_retire hreclaims hf] at hpin
    cases hpin
  case parent =>
    intro y f p hf hparent
    have hf' := hwithin y f hf
    obtain ⟨g, hg, himp⟩ := h.parent y f p hf' hparent
    refine ⟨g, frame?_retire_of_pinned hg ?_, himp⟩
    -- a frame inside the one that is freed would be active, and so inside a later one
    by_cases hp : p = x
    · subst hp
      cases hreclaims : a.reclaims with
      | false => exact .inr (.inr rfl)
      | true =>
        refine .inr (.inl (Classical.byContradiction fun hunpinned => ?_))
        have hpin : f.pinned = false := Bool.eq_false_iff.2 fun hpin => hunpinned (himp hpin)
        have hmem := h.unpinned hreclaims y f hf' hpin
        rw [hactive, List.mem_cons] at hmem
        rcases hmem with rfl | hmem
        · exact h.grounded.parent_ne hf' hparent
        · exact hpairs.1 y hmem f hf' hparent
    · exact .inl hp
  case carries =>
    intro fn hfn
    obtain ⟨hknown, hsince, hnumbered, f, hf, hpin⟩ := h.carries fn (hfn.imp id hwithin.binds)
    exact ⟨by rw [known_retire]; exact hknown, hsince,
      by rw [nextFunction_retire]; exact hnumbered, f,
      frame?_retire_of_pinned hf (.inr (.inl hpin)), hpin⟩

/-- A collection that is told of every function held frees nothing that is referred to. -/
theorem Sound.collect (h : a.Sound since held) (hout : ∀ fn, held fn → fn ∈ outside) :
    (a.collect outside).Sound since held := by
  have hwithin := within_collect a outside
  have hroot : ∀ {x f}, x ∈ a.roots outside → a.frame? x = some f →
      (a.collect outside).frame? x = some f :=
    fun hx hf => frame?_collect_of_reaches (.start hx) hf
  have hlink : ∀ {x y f g}, (a.collect outside).frame? x = some f → y ∈ f.links →
      a.frame? y = some g → (a.collect outside).frame? y = some g := by
    intro x y f g hf hy hg
    obtain ⟨g', hg'⟩ := live_collect_of_link hf hy ⟨g, hg⟩
    obtain rfl := Option.some.inj (hg.symm.trans (hwithin y g' hg'))
    exact hg'
  refine
    { tidy := h.tidy.collect outside
      grounded := h.grounded.within hwithin
      toplevel := h.toplevel.imp fun f hf => ⟨hroot (mem_roots_iff.2 (.inl rfl)) hf.1, hf.2⟩
      current := ?current
      active := ?active
      distinct := by rw [active_collect]; exact h.distinct
      inner := by rw [active_collect]; exact h.inner
      nested := ?nested
      unpinned := ?unpinned
      parent := ?parent
      numbered := by rw [nextFunction_collect]; exact h.numbered
      carries := ?carries }
  case current =>
    rw [current_collect]
    exact h.current.imp fun f hf => hroot (mem_roots_iff.2 (.inr (.inl rfl))) hf
  case active =>
    intro x hx
    rw [active_collect] at hx
    exact (h.active x hx).imp fun f hf => hroot (mem_roots_iff.2 (.inr (.inr (.inl hx)))) hf
  case nested =>
    rw [active_collect]
    exact h.nested.imp fun hne f hf => hne f (hwithin _ f hf)
  case unpinned =>
    intro hreclaims x f hf hpin
    rw [reclaims_collect] at hreclaims
    rw [active_collect]
    exact h.unpinned hreclaims x f (hwithin x f hf) hpin
  case parent =>
    intro x f p hf hparent
    obtain ⟨g, hg, himp⟩ := h.parent x f p (hwithin x f hf) hparent
    exact ⟨g, hlink hf (Frame.parent_mem_links hparent) hg, himp⟩
  case carries =>
    intro fn hfn
    obtain ⟨hknown, hsince, hnumbered, g, hg, hpin⟩ := h.carries fn (hfn.imp id hwithin.binds)
    have hholder : ∃ g, (a.Binds g ∨ g ∈ outside) ∧ g.identity = fn.identity :=
      ⟨fn, hfn.symm.imp hwithin.binds (hout fn), rfl⟩
    refine ⟨?_, hsince, by rw [nextFunction_collect]; exact hnumbered, g, ?_, hpin⟩
    · rw [known_collect]
      exact mem_known_forget_iff.2 ⟨hknown, hholder⟩
    -- a held function is a root; one bound in a frame that is left is linked from there
    · rcases hfn with hfn | ⟨x, f, hf, hmem⟩
      · have houtside : ∃ g ∈ outside, g.identity = fn.identity := ⟨fn, hout fn hfn, rfl⟩
        exact hroot (mem_roots_iff.2 (.inr (.inr (.inr ⟨fn, hknown, houtside, rfl⟩)))) hg
      · exact hlink hf (Frame.captured_mem_links hmem) hg

theorem Sound.release (h : a.Sound since held) (hactive : a.active = x :: older)
    (hcurrent : a.current ≠ x) (hout : ∀ fn, held fn → fn ∈ outside) :
    (a.release x outside).Sound since held := by
  rcases release_cases a x outside with hx | hx
  · rw [hx]
    exact h.retire hactive hcurrent
  · rw [hx]
    exact (h.retire hactive hcurrent).collect hout

end Script.Arena
