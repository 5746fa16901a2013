import Script.Proofs.Arena.Histories
import Script.Proofs.Arena.Soundness

/-!
# The representation of an arena

A client may use an arena in any order and through stale handles. What keeps the arena in order is
that handles which were issued are never issued again.

- `Arena.Orderly`: the invariant. Parents were issued, pinned frames have pinned parents, and frames
  that are not pinned are active.
- `orderly_new`, `Orderly.push`, `Orderly.closure`, `Orderly.release`, `Orderly.collect`: the
  operations keep it.
- `Orderly.pinned_of_walk`: all frames around a pinned one are pinned.
- `Client.Represented`, `representation_kept`: what holds after every history.
-/

namespace Script

namespace Arena

variable {a b : Arena} {x y p : Handle} {f : Frame} {fn : Closure} {outside : List Closure}

/-! ## Pinned frames -/

/-- The frame around a pinned frame is pinned, if it is there. -/
def PinsOutwards (a : Arena) : Prop :=
  ∀ x f p g, a.frame? x = some f → f.parent = some p → f.pinned = true →
    a.frame? p = some g → g.pinned = true

/-- All frames that a walk from a pinned frame meets are pinned. -/
theorem PinsOutwards.of_walk (h : a.PinsOutwards) {o : Option Handle} {l : List (Handle × Frame)}
    (hl : a.Walk o l) (hfirst : ∀ x f, o = some x → a.frame? x = some f → f.pinned = true) :
    ∀ link ∈ l, link.2.pinned = true := by
  induction hl with
  | outermost => simp
  | lost => simp
  | @inside x f l hf hrest ih =>
    have hx := hfirst x f rfl hf
    refine List.forall_mem_cons.2 ⟨hx, ih fun p g hp hg => ?_⟩
    exact h x f p g hf hp hx hg

/-- A new function pins the innermost scope and those around it up to the first that is pinned
already; those outside of that one are pinned too. -/
theorem PinsOutwards.closure (h : a.PinsOutwards) (hground : a.Grounded) (decl : FunDecl) :
    (a.closure decl).1.PinsOutwards := by
  intro x f p g hf hparent hpinned hg
  rw [frame?_closure] at hf hg
  obtain ⟨f, hx', rfl⟩ := Option.map_eq_some_iff.1 hf
  obtain ⟨g, hp', rfl⟩ := Option.map_eq_some_iff.1 hg
  obtain ⟨l, hl⟩ := hground a.current
  have hnext := hl.unpinned_closed.2
  rw [← chain_eq_of_walk hl] at hnext
  by_cases hp : p ∈ a.unpinnedScopes
  · rw [if_pos hp]
    rfl
  · rw [if_neg hp]
    -- the frame around one that is pinned now was pinned before, if it is not pinned now
    by_cases hx : x ∈ a.unpinnedScopes
    · rw [if_pos hx] at hparent
      exact (hnext x hx f p g hx' hparent hp').resolve_right hp
    · rw [if_neg hx] at hparent hpinned
      exact h x f p g hx' hparent hpinned hp'

/-- After a new function is made, the innermost scope is pinned. -/
theorem pinned_current_closure (hground : a.Grounded) {decl : FunDecl}
    (hf : (a.closure decl).1.frame? a.current = some f) : f.pinned = true := by
  rw [frame?_closure] at hf
  obtain ⟨g, hg, rfl⟩ := Option.map_eq_some_iff.1 hf
  obtain ⟨l, hl⟩ := hground a.current
  have hfirst := hl.unpinned_closed.1 a.current g rfl hg
  rw [← chain_eq_of_walk hl] at hfirst
  split
  · rfl
  · rename_i hscopes
    exact hfirst.resolve_right hscopes

/-! ## The invariant -/

/-- The frames of an arena are in order, whatever handles are still in use. -/
structure Orderly (a : Arena) : Prop where
  reclaims : a.reclaims = true
  tidy : a.Tidy
  grounded : a.Grounded
  toplevel : ∃ f, a.frame? global = some f ∧ f.pinned = true
  current : a.Issued a.current
  active : ∀ x ∈ a.active, a.Live x
  distinct : a.active.Nodup
  /-- A frame that is not pinned is freed when its scope ends. -/
  kept : ∀ x f, a.frame? x = some f → f.pinned = true ∨ x ∈ a.active
  /-- A parent may be gone, but its handle will not be used for another frame. -/
  parent : ∀ x f p, a.frame? x = some f → f.parent = some p → a.Issued p
  pinned : a.PinsOutwards

theorem orderly_new (policy : Policy) (n : Nat) : (new policy n).Orderly := by
  have hcontents : ∀ x f, (new policy n).frame? x = some f → f = ⟨[], none, true⟩ := by
    intro x f hf
    rw [frame?_new] at hf
    split at hf
    · exact (Option.some.inj hf).symm
    · cases hf
  refine
    { reclaims := rfl
      tidy := tidy_new policy n
      grounded := grounded_new policy n
      toplevel := ⟨_, rfl, rfl⟩
      current := .inl ⟨_, rfl⟩
      active := fun x hx => nomatch hx
      distinct := List.nodup_nil
      kept := fun x f hf => .inl (hcontents x f hf ▸ rfl)
      parent := fun x f p hf hparent => ?_
      pinned := fun x f p g hf hparent => ?_ }
  · rw [hcontents x f hf] at hparent
    cases hparent
  · rw [hcontents x f hf] at hparent
    cases hparent

/-! ## Operations -/

theorem Orderly.enter (h : a.Orderly) (hx : a.Issued x) : (a.enter x).Orderly :=
  { h with
    tidy := h.tidy.congr rfl rfl
    grounded := h.grounded.of_parents fun _ => rfl
    current := hx }

/-- A new frame, which may be inside one that is gone. -/
theorem Orderly.push (h : a.Orderly) (hp : a.Issued p) (hcounts : a.Counts (a.push p).1) :
    (a.push p).1.Orderly := by
  have hissued : ∀ {x}, a.Issued x → (a.push p).1.Issued x := (ages_push a p).issued hcounts
  have hnew : ∀ {x}, a.Issued x → x ≠ (a.push p).2 := by
    rintro x hx rfl
    exact h.tidy.not_issued_pushed p hx
  have hframe := h.tidy.frame?_push p
  have hold : ∀ {x}, a.Issued x → (a.push p).1.frame? x = a.frame? x := by
    intro x hx
    rw [hframe, if_neg (hnew hx)]
  refine
    { reclaims := (reclaims_push a p).trans h.reclaims
      tidy := h.tidy.push p
      grounded := h.grounded.push h.tidy (hnew hp) fun x f hf heq => ?inside
      toplevel := ?toplevel
      current := by rw [current_push]; exact hissued h.current
      active := ?active
      distinct := ?distinct
      kept := ?kept
      parent := ?parent
      pinned := ?pinned }
  case inside => exact hnew (h.parent x f _ hf heq) rfl
  case toplevel =>
    obtain ⟨f, hf, hpinned⟩ := h.toplevel
    exact ⟨f, (hold (.inl ⟨f, hf⟩)).trans hf, hpinned⟩
  case active =>
    intro x hx
    rw [active_push, List.mem_cons] at hx
    rcases hx with rfl | hx
    · exact ⟨_, (hframe _).trans (if_pos rfl)⟩
    · obtain ⟨f, hf⟩ := h.active x hx
      exact ⟨f, (hold (.inl ⟨f, hf⟩)).trans hf⟩
  case distinct =>
    rw [active_push, List.nodup_cons]
    exact ⟨fun hmem => hnew (.inl (h.active _ hmem)) rfl, h.distinct⟩
  case kept =>
    intro x f hf
    rw [active_push, List.mem_cons]
    rw [hframe] at hf
    split at hf
    · exact .inr (.inl ‹_›)
    · exact (h.kept x f hf).imp id .inr
  case parent =>
    intro x f q hf hparent
    rw [hframe] at hf
    split at hf
    · obtain rfl := Option.some.inj hf
      obtain rfl := Option.some.inj hparent
      exact hissued hp
    · exact hissued (h.parent x f q hf hparent)
  case pinned =>
    intro x f q g hf hparent hpinned hg
    rw [hframe] at hf
    split at hf
    · obtain rfl := Option.some.inj hf
      cases hpinned
    · rw [hold (h.parent x f q hf hparent)] at hg
      exact h.pinned x f q g hf hparent hpinned hg

theorem Orderly.put (h : a.Orderly) (x : Handle) (name : String) (v : Value)
    (hcounts : a.Counts (a.put x name v)) : (a.put x name v).Orderly := by
  -- parents and pins are those of the frames before
  have hview : ∀ {y f}, (a.put x name v).frame? y = some f →
      ∃ g, a.frame? y = some g ∧ g.parent = f.parent ∧ g.pinned = f.pinned := by
    intro y f hf
    have hmap : ((a.put x name v).frame? y).map (fun f => (f.parent, f.pinned)) = _ :=
      map_frame?_put _ (fun f => rfl) x y
    rw [hf, Option.map_some] at hmap
    obtain ⟨g, hg, hsame⟩ := Option.map_eq_some_iff.1 hmap.symm
    obtain ⟨hparent, hpinned⟩ := Prod.mk.inj hsame
    exact ⟨g, hg, hparent, hpinned⟩
  have hissued : ∀ {y}, a.Issued y → (a.put x name v).Issued y :=
    (ages_put a x name v).issued hcounts
  refine
    { reclaims := h.reclaims
      tidy := h.tidy.put x name v
      grounded := h.grounded.put x name v
      toplevel := ?toplevel
      current := hissued h.current
      active := fun y hy => live_put_iff.2 (h.active y hy)
      distinct := h.distinct
      kept := ?kept
      parent := ?parent
      pinned := ?pinned }
  case toplevel =>
    obtain ⟨f, hf, hpinned⟩ := h.toplevel
    obtain ⟨g, hg⟩ : (a.put x name v).Live global := live_put_iff.2 ⟨f, hf⟩
    obtain ⟨f', hf', -, hsame⟩ := hview hg
    obtain rfl := Option.some.inj (hf.symm.trans hf')
    exact ⟨g, hg, hsame.symm.trans hpinned⟩
  case kept =>
    intro y f hf
    obtain ⟨g, hg, -, hsame⟩ := hview hf
    exact hsame ▸ h.kept y g hg
  case parent =>
    intro y f q hf hparent
    obtain ⟨g, hg, hsame, -⟩ := hview hf
    exact hissued (h.parent y g q hg (hsame.trans hparent))
  case pinned =>
    intro y f q r hf hparent hpinned hr
    obtain ⟨g, hg, hsame, hsame'⟩ := hview hf
    obtain ⟨s, hs, -, hsame''⟩ := hview hr
    exact hsame'' ▸ h.pinned y g q s hg (hsame.trans hparent) (hsame'.trans hpinned) hs

theorem Orderly.closure (h : a.Orderly) (decl : FunDecl)
    (hcounts : a.Counts (a.closure decl).1) : (a.closure decl).1.Orderly := by
  have hframe := frame?_closure a decl
  have hissued : ∀ {y}, a.Issued y → (a.closure decl).1.Issued y :=
    (ages_closure a decl).issued hcounts
  refine
    { reclaims := (reclaims_closure a decl).trans h.reclaims
      tidy := h.tidy.closure decl
      grounded := h.grounded.closure decl
      toplevel := ?toplevel
      current := by rw [current_closure]; exact hissued h.current
      active := fun y hy => live_closure_iff.2 (h.active y (by rwa [active_closure] at hy))
      distinct := by rw [active_closure]; exact h.distinct
      kept := ?kept
      parent := ?parent
      pinned := h.pinned.closure h.grounded decl }
  case toplevel =>
    obtain ⟨f, hf, hpinned⟩ := h.toplevel
    rw [hframe, hf]
    refine ⟨_, rfl, ?_⟩
    split
    · rfl
    · exact hpinned
  case kept =>
    intro y f hf
    rw [hframe] at hf
    obtain ⟨g, hg, rfl⟩ := Option.map_eq_some_iff.1 hf
    rw [active_closure]
    split
    · exact .inl rfl
    · exact h.kept y g hg
  case parent =>
    intro y f q hf hparent
    rw [hframe] at hf
    obtain ⟨g, hg, rfl⟩ := Option.map_eq_some_iff.1 hf
    refine hissued (h.parent y g q hg ?_)
    split at hparent <;> exact hparent

/-- Frames are freed, but no active one, and frames are active no more, but no unpinned one. -/
theorem Orderly.within (h : a.Orderly) (hages : a.Ages b) (hcounts : a.Counts b)
    (hwithin : b.Within a) (hreclaims : b.reclaims = a.reclaims) (htidy : b.Tidy)
    (htoplevel : b.Live global) (hcurrent : b.current = a.current)
    (hactive : ∀ x ∈ b.active, b.Live x) (hdistinct : b.active.Nodup)
    (hkept : ∀ x f, b.frame? x = some f → x ∈ a.active → f.pinned = true ∨ x ∈ b.active) :
    b.Orderly where
  reclaims := hreclaims.trans h.reclaims
  tidy := htidy
  grounded := h.grounded.within hwithin
  toplevel := by
    obtain ⟨f, hf⟩ := htoplevel
    obtain ⟨g, hg, hpinned⟩ := h.toplevel
    obtain rfl := Option.some.inj ((hwithin _ f hf).symm.trans hg)
    exact ⟨f, hf, hpinned⟩
  current := by
    rw [hcurrent]
    exact hages.issued hcounts h.current
  active := hactive
  distinct := hdistinct
  kept x f hf := (h.kept x f (hwithin x f hf)).elim .inl (hkept x f hf)
  parent x f p hf hparent := hages.issued hcounts (h.parent x f p (hwithin x f hf) hparent)
  pinned x f p g hf hparent hpinned hg :=
    h.pinned x f p g (hwithin x f hf) hparent hpinned (hwithin p g hg)

theorem Orderly.retire (h : a.Orderly) (x : Handle) (hcounts : a.Counts (a.retire x)) :
    (a.retire x).Orderly := by
  obtain ⟨f, hf, hpinned⟩ := h.toplevel
  refine h.within (ages_retire a x) hcounts (within_retire a x) (reclaims_retire a x)
    (h.tidy.retire x) ⟨f, frame?_retire_of_pinned hf (.inr (.inl hpinned))⟩ (current_retire a x)
    ?active ?distinct ?kept
  case active =>
    intro y hy
    rw [active_retire, h.distinct.mem_erase_iff] at hy
    obtain ⟨g, hg⟩ := h.active y hy.2
    exact ⟨g, frame?_retire_of_ne hg hy.1⟩
  case distinct =>
    rw [active_retire]
    exact h.distinct.erase x
  case kept =>
    intro y g hg hy
    by_cases hyx : y = x
    -- the frame of the scope that ends is still there, so it is pinned
    · subst hyx
      exact .inl (pinned_of_frame?_retire h.reclaims hg)
    · rw [active_retire, h.distinct.mem_erase_iff]
      exact .inr ⟨hyx, hy⟩

/-- A collection frees no active frame, whatever is told to be held. -/
theorem Orderly.collect (h : a.Orderly) (outside : List Closure)
    (hcounts : a.Counts (a.collect outside)) : (a.collect outside).Orderly := by
  have hroot : ∀ {x}, a.Live x → x ∈ a.roots outside → (a.collect outside).Live x :=
    fun ⟨f, hf⟩ hx => ⟨f, frame?_collect_of_reaches (.start hx) hf⟩
  refine h.within (ages_collect a outside) hcounts (within_collect a outside)
    (reclaims_collect a outside) (h.tidy.collect outside) ?toplevel (current_collect a outside)
    ?active ?distinct ?kept
  case toplevel =>
    exact hroot (h.toplevel.imp fun f hf => hf.1) (mem_roots_iff.2 (.inl rfl))
  case active =>
    intro x hx
    rw [active_collect] at hx
    exact hroot (h.active x hx) (mem_roots_iff.2 (.inr (.inr (.inl hx))))
  case distinct =>
    rw [active_collect]
    exact h.distinct
  case kept =>
    intro x f _ hx
    rw [active_collect]
    exact .inr hx

theorem Orderly.release (h : a.Orderly) (x : Handle) (outside : List Closure)
    (hcounts : a.Counts (a.release x outside)) : (a.release x outside).Orderly := by
  rcases release_cases_slots a x outside with heq | ⟨hslots, heq⟩
  · rw [heq] at hcounts ⊢
    exact h.retire x hcounts
  · rw [heq] at hcounts ⊢
    have hretire : a.Counts (a.retire x) := by
      intro i hi
      simp only [gaveBack, hslots] at hi
      split at hi <;> simp_all
    refine (h.retire x hretire).collect outside fun i hi => ?_
    have hsame : ∀ b, (a.retire x).gaveBack b i = a.gaveBack b i ∧
        (a.retire x).age i = a.age i := by
      intro b
      simp only [gaveBack, age, hslots, and_self]
    rw [(hsame _).1] at hi
    rw [(hsame a).2]
    exact hcounts i hi

/-! ## What stays known -/

/-- A collection forgets no function that is still bound or held. -/
theorem mem_known_collect (hknown : fn ∈ a.known)
    (h : (a.collect outside).Binds fn ∨ fn ∈ outside) : fn ∈ (a.collect outside).known := by
  rw [known_collect, mem_known_forget_iff]
  exact ⟨hknown, fn, h.imp (within_collect a outside).binds id, rfl⟩

theorem mem_known_release (hknown : fn ∈ a.known)
    (h : (a.release x outside).Binds fn ∨ fn ∈ outside) : fn ∈ (a.release x outside).known := by
  rcases release_cases a x outside with heq | heq
  · rw [heq, known_retire]
    exact hknown
  · rw [heq] at h ⊢
    exact mem_known_collect (by rwa [known_retire]) h

/-! ## Free slots and occupied slots -/

theorem Tidy.mem_free_iff_not_occupied (h : a.Tidy) (i : Nat) :
    i ∈ a.free ↔ i < a.slots.size ∧ a.isOccupied i = false := by
  rw [h.mem_free_iff]
  unfold isOccupied
  cases hslot : a.slots[i]? with
  | none => simpa using Array.getElem?_eq_none_iff.1 hslot
  | some s =>
    obtain ⟨n, frame⟩ := s
    have hi : i < a.slots.size := (Array.getElem?_eq_some_iff.1 hslot).1
    cases frame <;> simp [hi]

/-- The number of live frames is the number of occupied slots. -/
theorem Tidy.live_eq (h : a.Tidy) :
    a.live = (List.range a.slots.size).countP a.isOccupied := by
  have hperm : a.free.Perm ((List.range a.slots.size).filter fun i => !a.isOccupied i) := by
    refine (List.perm_ext_iff_of_nodup h.free_nodup (List.nodup_range.filter _)).2 fun i => ?_
    rw [h.mem_free_iff_not_occupied, List.mem_filter, List.mem_range, Bool.not_eq_true']
  have hfree := hperm.length_eq
  rw [← List.countP_eq_length_filter] at hfree
  have hsplit := List.length_eq_countP_add_countP a.isOccupied (l := List.range a.slots.size)
  have hnot : (List.range a.slots.size).countP (fun i => ¬ a.isOccupied i = true) =
      (List.range a.slots.size).countP fun i => !a.isOccupied i :=
    List.countP_congr fun i _ => by simp
  rw [List.length_range, hnot, ← hfree] at hsplit
  unfold live
  omega

end Arena

/-! ## After every history -/

namespace Client

variable {c d : Client} {e : Event} {n : Nat} {fn : Closure}

/-- The arena of a client is in order, handles that were issued stay apart, and the functions made
in the arena, which are numbered from `n` on, are known as long as they are bound or held. -/
structure InOrder (n : Nat) (c : Client) : Prop where
  arena : c.arena.Orderly
  issued : ∀ x ∈ c.issued, c.arena.Issued x
  numbered : n ≤ c.arena.nextFunction
  known : ∀ fn, n ≤ fn.identity → c.arena.Binds fn ∨ fn ∈ c.held → fn ∈ c.arena.known

theorem inOrder_new (policy : Policy) (n : Nat) : (new policy n).InOrder n where
  arena := Arena.orderly_new policy n
  issued x hx := by
    obtain rfl := List.mem_singleton.1 hx
    exact .inl ⟨_, rfl⟩
  numbered := Nat.le_refl n
  known fn _ hfn := (accounted_new policy n).known fn hfn

/-- Nothing has to be shown about known functions while no other becomes bound or held. -/
theorem InOrder.of_known_eq (h : c.InOrder n) (hages : c.arena.Ages d.arena)
    (hcounts : c.arena.Counts d.arena) (harena : d.arena.Orderly) (hissued : d.issued = c.issued)
    (hnext : d.arena.nextFunction = c.arena.nextFunction)
    (hknown : d.arena.known = c.arena.known)
    (hholders : ∀ fn, n ≤ fn.identity → d.arena.Binds fn ∨ fn ∈ d.held →
      c.arena.Binds fn ∨ fn ∈ c.held) : d.InOrder n where
  arena := harena
  issued x hx := hages.issued hcounts (h.issued x (hissued ▸ hx))
  numbered := by
    rw [hnext]
    exact h.numbered
  known fn hn hfn := by
    rw [hknown]
    exact h.known fn hn (hholders fn hn hfn)

theorem InOrder.push (h : c.InOrder n) {p : Handle} (hp : p ∈ c.issued)
    (hcounts : c.arena.Counts (c.arena.push p).1) :
    InOrder n ⟨(c.arena.push p).1, c.issued ++ [(c.arena.push p).2], c.held⟩ where
  arena := h.arena.push (h.issued p hp) hcounts
  issued x hx := by
    rcases List.mem_append.1 hx with hx | hx
    · exact (Arena.ages_push ..).issued hcounts (h.issued x hx)
    · obtain rfl := List.mem_singleton.1 hx
      exact .inl ((h.arena.tidy.live_push_iff p).2 (.inl rfl))
  numbered := by
    rw [Arena.nextFunction_push]
    exact h.numbered
  known fn hn hfn := by
    rw [Arena.known_push]
    exact h.known fn hn (hfn.imp (h.arena.tidy.binds_push p) id)

/-- The new function is known from the beginning. -/
theorem InOrder.make (h : c.InOrder n) (decl : FunDecl)
    (hcounts : c.arena.Counts (c.arena.closure decl).1) :
    InOrder n ⟨(c.arena.closure decl).1, c.issued, c.held ++ [(c.arena.closure decl).2]⟩ where
  arena := h.arena.closure decl hcounts
  issued x hx := (Arena.ages_closure ..).issued hcounts (h.issued x hx)
  numbered := Nat.le_succ_of_le h.numbered
  known fn hn hfn := by
    rw [Arena.known_closure, List.mem_cons]
    rcases hfn with hfn | hfn
    · exact .inr (h.known fn hn (.inl (Arena.binds_closure hfn)))
    · rcases List.mem_append.1 hfn with hfn | hfn
      · exact .inr (h.known fn hn (.inr hfn))
      · exact .inl (List.mem_singleton.1 hfn)

/-- **One event keeps the arena in order**, if it brings in no function with the number of one made
here. -/
theorem InOrder.change (h : c.InOrder n) (hchange : c.Change e d)
    (hcounts : c.arena.Counts d.arena) (hforeign : ∀ fn, e = .receive fn → fn.identity < n) :
    d.InOrder n := by
  have hages := hchange.ages
  cases hchange with
  | hands held origin =>
    refine h.of_known_eq hages hcounts h.arena rfl rfl rfl fun fn hn hfn => ?_
    rcases hfn with hfn | hfn
    · exact .inl hfn
    · rcases origin fn hfn with hfn | hfn | hfn
      · exact .inr hfn
      · exact .inl hfn
      · exact absurd hn (Nat.not_le.2 (hforeign fn hfn))
  | push p issued => exact h.push issued hcounts
  | enter x issued =>
    exact h.of_known_eq hages hcounts (h.arena.enter (h.issued x issued)) rfl rfl rfl
      fun fn _ hfn => hfn
  | release x issued =>
    exact {
      arena := h.arena.release x c.held hcounts
      issued := fun y hy => hages.issued hcounts (h.issued y hy)
      numbered := by rw [Arena.nextFunction_release]; exact h.numbered
      known := fun fn hn hfn => Arena.mem_known_release
        (h.known fn hn (hfn.imp (Arena.within_release c.arena x c.held).binds id)) hfn }
  | make decl => exact h.make decl hcounts
  | put x name v held =>
    refine h.of_known_eq hages hcounts (h.arena.put x name v hcounts) rfl rfl rfl
      fun fn _ hfn => ?_
    rcases hfn with hfn | hfn
    · exact (Arena.binds_put hfn).imp id (held fn)
    · exact .inr hfn
  | collect =>
    exact {
      arena := h.arena.collect c.held hcounts
      issued := fun y hy => hages.issued hcounts (h.issued y hy)
      numbered := by rw [Arena.nextFunction_collect]; exact h.numbered
      known := fun fn hn hfn => Arena.mem_known_collect
        (h.known fn hn (hfn.imp (Arena.within_collect c.arena c.held).binds id)) hfn }

/-- Every history keeps the arena in order. -/
theorem inOrder_history {events : List Event} (policy : Policy)
    (hforeign : ∀ fn, .receive fn ∈ events → fn.identity < n)
    (hcounts : (new policy n).Counts events) : (history policy n events).InOrder n :=
  history_induction (inOrder_new policy n) hcounts fun _ _ _ he hcounts hchange h =>
    h.change hchange hcounts fun fn hfn => hforeign fn (hfn ▸ he)

/-- The representation of an arena, where functions made in it are numbered from `n` on. -/
structure Represented (n : Nat) (c : Client) : Prop where
  free_nodup : c.arena.free.Nodup
  mem_free_iff : ∀ i, i ∈ c.arena.free ↔ i < c.arena.slots.size ∧ c.arena.isOccupied i = false
  live_eq : c.arena.live = (List.range c.arena.slots.size).countP c.arena.isOccupied
  toplevel : ∃ f, c.arena.frame? Arena.global = some f ∧ f.pinned = true
  active_nodup : c.arena.active.Nodup
  active_live : ∀ x ∈ c.arena.active, c.arena.Live x
  pinned_or_active : ∀ x f, c.arena.frame? x = some f → f.pinned = true ∨ x ∈ c.arena.active
  /-- Going outwards from a pinned frame meets pinned frames only, as far as there are any. -/
  pinned_outwards : ∀ x, ∃ l, c.arena.Walk (some x) l ∧
    ((∃ f, c.arena.frame? x = some f ∧ f.pinned = true) → ∀ link ∈ l, link.2.pinned = true)
  /-- A new function leaves all frames from the innermost scope outwards pinned. -/
  pinned_by_closure : ∀ decl, ∃ l, (c.arena.closure decl).1.Walk (some c.arena.current) l ∧
    ∀ link ∈ l, link.2.pinned = true
  /-- A function made in the arena is known as long as a frame binds it or the client holds it. -/
  known : ∀ fn, n ≤ fn.identity → c.arena.Binds fn ∨ fn ∈ c.held → fn ∈ c.arena.known

/-- **An arena stays in order however it is used.** Whatever a client does, in whatever order and
through whatever handles it was issued, also those of frames that were freed or released before, and
whatever functions from elsewhere it passes on: as long as no slot was given back so often that its
generation begins anew, the arena is as represented. -/
theorem representation_kept (policy : Policy) (n : Nat) (events : List Event)
    (hforeign : ∀ fn, .receive fn ∈ events → fn.identity < n)
    (hfrees : ∀ i, (new policy n).frees i events < UInt32.size) :
    (history policy n events).Represented n := by
  have h := inOrder_history policy hforeign (counts_new hfrees)
  have harena := h.arena
  refine
    { free_nodup := harena.tidy.free_nodup
      mem_free_iff := harena.tidy.mem_free_iff_not_occupied
      live_eq := harena.tidy.live_eq
      toplevel := harena.toplevel
      active_nodup := harena.distinct
      active_live := harena.active
      pinned_or_active := harena.kept
      pinned_outwards := fun x => ?outwards
      pinned_by_closure := fun decl => ?closure
      known := h.known }
  case outwards =>
    obtain ⟨l, hl⟩ := harena.grounded x
    refine ⟨l, hl, fun ⟨f, hf, hpinned⟩ => harena.pinned.of_walk hl fun y g hy hg => ?_⟩
    obtain rfl := Option.some.inj hy
    obtain rfl := Option.some.inj (hf.symm.trans hg)
    exact hpinned
  case closure =>
    obtain ⟨l, hl⟩ := harena.grounded.closure decl (history policy n events).arena.current
    have hpins := harena.pinned.closure harena.grounded decl
    refine ⟨l, hl, hpins.of_walk hl fun y g hy hg => ?_⟩
    obtain rfl := Option.some.inj hy
    exact Arena.pinned_current_closure harena.grounded hg

/-- One event gives a slot back at most once. -/
theorem frees_le_length (c : Client) (i : Nat) (events : List Event) :
    c.frees i events ≤ events.length := by
  induction events generalizing c with
  | nil => exact Nat.le_refl 0
  | cons e events ih =>
    have hrest := ih (c.meet e)
    rw [frees, List.length_cons]
    split <;> omega

/-- A frame is released twice, and a frame is pushed inside it that takes its slot. A function is
made in the new frame, and one from elsewhere is given a name there. The top-level frame is
released, the first frame is entered although it is gone, and the frames are collected. -/
def staleScopes : List Event :=
  [.operation (.push 0), .operation (.release 1), .operation (.release 1), .operation (.push 1),
    .operation (.enter 2), .operation (.closure default), .receive ⟨0, default, ⟨7, 3⟩⟩,
    .operation (.define "f" (.function 1)), .operation (.release 0), .operation (.push 2),
    .operation (.enter 1), .operation .collect, .operation (.release 3)]

theorem representation_kept_staleScopes :
    (∀ fn, .receive fn ∈ staleScopes → fn.identity < 1) ∧
      (∀ i, (new .strict 1).frees i staleScopes < UInt32.size) ∧
      (history .strict 1 staleScopes).Represented 1 := by
  have hforeign : ∀ fn, .receive fn ∈ staleScopes → fn.identity < 1 := by
    intro fn hfn
    simp only [staleScopes, List.mem_cons, reduceCtorEq, Event.receive.injEq, List.not_mem_nil,
      false_or, or_false] at hfn
    exact hfn ▸ Nat.zero_lt_one
  have hfrees : ∀ i, (new .strict 1).frees i staleScopes < UInt32.size := fun i =>
    Nat.lt_of_le_of_lt (frees_le_length ..) (by decide)
  exact ⟨hforeign, hfrees, representation_kept .strict 1 staleScopes hforeign hfrees⟩

end Client

end Script
