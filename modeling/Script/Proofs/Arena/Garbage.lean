import Script.Proofs.Arena.Clients

/-!
# Collections free exactly the garbage

The slots after a collection, slot by slot, for an arena in whatever state a client has brought it.

- `Arena.KeepsExactly`: given frames are left as they are, all others are freed.
- `Arena.Reordered`: arenas that differ only in the order of the variables in a frame.
- `Reordered.collect`: that order has no influence on a collection.
- `collect_frees_exactly_garbage`: a collection keeps what is needed and frees the rest.
-/

namespace Script

/-! ## The order of variables -/

/-- Two frames have the same variables, in whatever order. -/
structure Frame.Reordered (f g : Frame) : Prop where
  bindings : f.bindings.Perm g.bindings
  parent : f.parent = g.parent
  pinned : f.pinned = g.pinned

/-- Two slots hold frames with the same variables, or none. -/
structure Slot.Reordered (s t : Slot) : Prop where
  generation : s.generation = t.generation
  frame : Option.Rel Frame.Reordered s.frame t.frame

/-- Two arenas differ in nothing but the order of the variables in their frames. -/
structure Arena.Reordered (a b : Arena) : Prop where
  slots : ∀ i : Nat, Option.Rel Slot.Reordered a.slots[i]? b.slots[i]?
  size : a.slots.size = b.slots.size
  rest : b = { a with slots := b.slots }

theorem Frame.Reordered.functions {f g : Frame} (h : f.Reordered g) :
    f.functions.Perm g.functions :=
  h.bindings.flatMap_right _

theorem Frame.Reordered.links {f g : Frame} (h : f.Reordered g) : f.links.Perm g.links := by
  unfold Frame.links
  rw [h.parent]
  exact (h.functions.map _).append_left _

theorem Frame.Reordered.symm {f g : Frame} (h : f.Reordered g) : g.Reordered f :=
  ⟨h.bindings.symm, h.parent.symm, h.pinned.symm⟩

theorem Slot.Reordered.symm {s t : Slot} (h : s.Reordered t) : t.Reordered s := by
  refine ⟨h.generation.symm, ?_⟩
  rcases rel_cases h.frame with ⟨hs, ht⟩ | ⟨f, g, hs, ht, hfg⟩
  · rw [hs, ht]
    exact .none
  · rw [hs, ht]
    exact .some hfg.symm

namespace Arena

variable {a b : Arena} {outside outside' : List Closure} {x : Handle} {f : Frame} {fn : Closure}

theorem Reordered.symm (h : a.Reordered b) : b.Reordered a := by
  refine ⟨fun i => ?_, h.size.symm, ?_⟩
  · rcases rel_cases (h.slots i) with ⟨ha, hb⟩ | ⟨s, t, ha, hb, hst⟩
    · rw [ha, hb]
      exact .none
    · rw [ha, hb]
      exact .some hst.symm
  · rw [h.rest]

theorem Reordered.frame? (h : a.Reordered b) (hf : a.frame? x = some f) :
    ∃ g, b.frame? x = some g ∧ f.Reordered g := by
  have hx := frame?_eq_some_iff.1 hf
  rcases rel_cases (h.slots x.index) with ⟨ha, -⟩ | ⟨s, ⟨n, frame⟩, ha, hb, hst⟩
  · rw [ha] at hx
    cases hx
  · obtain rfl := Option.some.inj (ha.symm.trans hx)
    obtain rfl : x.generation = n := hst.generation
    rcases rel_cases hst.frame with ⟨hnone, -⟩ | ⟨_, g, hsome, hg, hfg⟩
    · cases hnone
    · obtain rfl := Option.some.inj hsome
      obtain rfl : frame = some g := hg
      exact ⟨g, frame?_eq_some_iff.2 hb, hfg⟩

theorem Reordered.live (h : a.Reordered b) (hx : a.Live x) : b.Live x := by
  obtain ⟨f, hf⟩ := hx
  obtain ⟨g, hg, -⟩ := h.frame? hf
  exact ⟨g, hg⟩

theorem Reordered.binds (h : a.Reordered b) (hfn : a.Binds fn) : b.Binds fn := by
  obtain ⟨x, f, hf, hmem⟩ := hfn
  obtain ⟨g, hg, hfg⟩ := h.frame? hf
  exact ⟨x, g, hg, hfg.functions.mem_iff.1 hmem⟩

theorem Reordered.known (h : a.Reordered b) : a.known = b.known := by
  rw [h.rest]

theorem Reordered.current (h : a.Reordered b) : a.current = b.current := by
  rw [h.rest]

theorem Reordered.active (h : a.Reordered b) : a.active = b.active := by
  rw [h.rest]

theorem Reordered.free (h : a.Reordered b) : a.free = b.free := by
  rw [h.rest]

theorem Reordered.reclaims (h : a.Reordered b) : a.reclaims = b.reclaims := by
  rw [h.rest]

theorem Reordered.reaches (h : a.Reordered b) {start start' : List Handle}
    (hstart : ∀ x ∈ start, x ∈ start') (hx : a.Reaches start x) : b.Reaches start' x := by
  induction hx with
  | start hmem => exact .start (hstart _ hmem)
  | link _ hf hy ih =>
    obtain ⟨g, hg, hfg⟩ := h.frame? hf
    exact .link ih hg (hfg.links.mem_iff.1 hy)

/-- The roots are found from the counts of holders, in which no order shows. -/
theorem Reordered.mem_roots (h : a.Reordered b) (hout : outside.Perm outside')
    (hx : x ∈ a.roots outside) : x ∈ b.roots outside' := by
  rw [mem_roots_iff] at hx ⊢
  rw [← h.known, ← h.current, ← h.active]
  refine hx.imp id (Or.imp id (Or.imp id ?_))
  rintro ⟨fn, hfn, ⟨g, hg, hid⟩, hcaptured⟩
  exact ⟨fn, hfn, ⟨g, hout.mem_iff.1 hg, hid⟩, hcaptured⟩

theorem Reordered.forget (h : a.Reordered b) (hout : outside.Perm outside') :
    (a.forget outside).Reordered (b.forget outside') := by
  have hsame : (a.forget outside).known = (b.forget outside').known := by
    have hiff : ∀ fn : Closure, 0 < (a.holders outside).getD fn.identity 0 ↔
        0 < (b.holders outside').getD fn.identity 0 := by
      intro fn
      simp only [holders, getD_tally, count_pos_iff, List.mem_append, mem_boundFunctions_iff,
        hout.mem_iff]
      have hbinds : ∀ g, a.Binds g ↔ b.Binds g := fun g => ⟨h.binds, h.symm.binds⟩
      simp only [hbinds]
    simp only [Arena.forget, h.known, hiff]
  refine ⟨h.slots, h.size, ?_⟩
  show { b with known := (b.forget outside').known } =
    ({ a with known := (a.forget outside).known, slots := b.slots } : Arena)
  rw [hsame, h.rest]

theorem Reordered.isOccupied (h : a.Reordered b) (i : Nat) : a.isOccupied i = b.isOccupied i := by
  unfold Arena.isOccupied
  rcases rel_cases (h.slots i) with ⟨ha, hb⟩ | ⟨s, t, ha, hb, hst⟩
  · rw [ha, hb]
  · rw [ha, hb]
    show s.frame.isSome = t.frame.isSome
    rcases rel_cases hst.frame with ⟨hs, ht⟩ | ⟨f, g, hs, ht, -⟩
    · rw [hs, ht]
    · rw [hs, ht]
      rfl

theorem Reordered.unmarked (h : a.Reordered b) {m m' : Array Bool}
    (hm : ∀ i, Marked m i ↔ Marked m' i) : a.unmarked m = b.unmarked m' := by
  have hmarked : ∀ i : Nat, (m[i]?).getD false = (m'[i]?).getD false := by
    intro i
    rw [Bool.eq_iff_iff, Option.getD_eq_iff, Option.getD_eq_iff]
    simpa [Marked] using hm i
  unfold Arena.unmarked
  rw [h.size]
  refine List.filter_congr fun i _ => ?_
  rw [h.isOccupied, hmarked]

theorem Reordered.freeSlot (h : a.Reordered b) (i : Nat) :
    (a.freeSlot i).Reordered (b.freeSlot i) := by
  cases hr : a.reclaims with
  | false =>
    rw [freeSlot_of_keeps hr, freeSlot_of_keeps (h.reclaims ▸ hr)]
    exact h
  | true =>
    have hr' : b.reclaims = true := h.reclaims ▸ hr
    refine ⟨fun j => ?_, ?_, ?_⟩
    · rw [slots_freeSlot hr, slots_freeSlot hr']
      split
      · rcases rel_cases (h.slots j) with ⟨ha, hb⟩ | ⟨s, t, ha, hb, hst⟩
        · rw [ha, hb]
          exact .none
        · rw [ha, hb]
          exact .some ⟨congrArg (· + 1) hst.generation, .none⟩
      · exact h.slots j
    · simp [Arena.freeSlot, hr, hr', h.size]
    · simp only [Arena.freeSlot, hr, hr', if_true, h.free]
      rw [h.rest]

theorem Reordered.foldl_freeSlot (h : a.Reordered b) (is : List Nat) :
    (is.foldl Arena.freeSlot a).Reordered (is.foldl Arena.freeSlot b) := by
  induction is generalizing a b with
  | nil => exact h
  | cons i is ih => exact ih (h.freeSlot i)

/-- **The order of the variables in a frame has no influence on a collection**, nor has the order
in which the functions held outside are listed. -/
theorem Reordered.collect (h : a.Reordered b) (hout : outside.Perm outside') :
    (a.collect outside).Reordered (b.collect outside') := by
  have hforget := h.forget hout
  -- marking meets the frames in another order, but marks the same slots
  have hmarks : ∀ i, Marked ((a.forget outside).mark
        (Array.replicate (a.forget outside).slots.size false)
        ((a.forget outside).roots outside)) i ↔
      Marked ((b.forget outside').mark (Array.replicate (b.forget outside').slots.size false)
        ((b.forget outside').roots outside')) i := by
    intro i
    rw [mark_iff, mark_iff]
    constructor
    · rintro ⟨x, hx, hlive, hreach⟩
      exact ⟨x, hx, hforget.live hlive,
        hforget.reaches (fun _ => hforget.mem_roots hout) hreach⟩
    · rintro ⟨x, hx, hlive, hreach⟩
      exact ⟨x, hx, hforget.symm.live hlive,
        hforget.symm.reaches (fun _ => hforget.symm.mem_roots hout.symm) hreach⟩
  have hsweep := hforget.foldl_freeSlot ((b.forget outside').unmarked
    ((b.forget outside').mark (Array.replicate (b.forget outside').slots.size false)
      ((b.forget outside').roots outside')))
  refine ⟨?_, ?_, ?_⟩
  · simp only [Arena.collect, Arena.sweep, hforget.unmarked hmarks]
    exact hsweep.slots
  · simp only [Arena.collect, Arena.sweep, hforget.unmarked hmarks]
    exact hsweep.size
  · simp only [Arena.collect, Arena.sweep, hforget.unmarked hmarks, Arena.live, hsweep.size,
      hsweep.free]
    rw [hsweep.rest]

/-! ## Slot by slot -/

/-- The frames that `kept` holds of are left as they are; the slots of all others are emptied and
their generation advanced; empty slots stay as they were. -/
structure KeepsExactly (a : Arena) (kept : Handle → Prop) (b : Arena) : Prop where
  size : b.slots.size = a.slots.size
  keeps : ∀ x f, a.frame? x = some f → kept x → b.frame? x = some f
  freed : ∀ x f, a.frame? x = some f → ¬ kept x →
    b.slots[x.index]? = some ⟨x.generation + 1, none⟩
  empty : ∀ (i : Nat) (n : UInt32), a.slots[i]? = some ⟨n, none⟩ → b.slots[i]? = some ⟨n, none⟩

theorem KeepsExactly.congr {kept kept' : Handle → Prop} (h : a.KeepsExactly kept b)
    (hiff : ∀ x, kept x ↔ kept' x) : a.KeepsExactly kept' b :=
  (funext fun x => propext (hiff x)) ▸ h

/-- The frames left are those of `kept`. -/
theorem KeepsExactly.live_iff {kept : Handle → Prop} (h : a.KeepsExactly kept b) (hx : a.Live x) :
    b.Live x ↔ kept x := by
  obtain ⟨f, hf⟩ := hx
  constructor
  · rintro ⟨g, hg⟩
    refine Classical.byContradiction fun hnot => ?_
    have hslot := h.freed x f hf hnot
    rw [frame?_eq_some_iff.1 hg] at hslot
    simp at hslot
  · exact fun hkept => ⟨f, h.keeps x f hf hkept⟩

theorem size_foldl_freeSlot (a : Arena) (is : List Nat) :
    (is.foldl Arena.freeSlot a).slots.size = a.slots.size := by
  induction is generalizing a with
  | nil => rfl
  | cons i is ih =>
    rw [List.foldl_cons, ih]
    unfold Arena.freeSlot
    split
    · exact Array.size_modify
    · rfl

/-- A collection keeps what can be reached from its roots. -/
theorem keepsExactly_collect (h : a.reclaims = true) (outside : List Closure) :
    a.KeepsExactly (a.Reaches (a.roots outside)) (a.collect outside) where
  size := size_foldl_freeSlot (a.forget outside) _
  keeps x f hf hreach := frame?_collect_of_reaches hreach hf
  freed x f hf hreach := by
    show ((a.forget outside).sweep _).slots[x.index]? = _
    have hslot := frame?_eq_some_iff.1 hf
    rw [getElem?_sweep (a := a.forget outside) h, if_pos]
    · show (a.slots[x.index]?).map _ = _
      rw [hslot]
      rfl
    · rw [mem_unmarked_iff, marked_collect_iff ⟨f, hf⟩]
      exact ⟨⟨_, f, hslot⟩, hreach⟩
  empty i n hslot := by
    show ((a.forget outside).sweep _).slots[i]? = _
    rw [getElem?_sweep (a := a.forget outside) h, if_neg]
    · exact hslot
    · rw [mem_unmarked_iff]
      rintro ⟨⟨m, f, hf⟩, -⟩
      rw [show (a.forget outside).slots[i]? = _ from hslot] at hf
      cases hf

end Arena

/-- **A collection frees exactly the garbage.** Whatever a client has done with an arena, also with
handles of frames that were freed, a frame survives a collection if and only if it is needed: by a
scope in use, by a function held outside the arena, or along parents and captured scopes from there.
Survivors keep their handle and contents, freed slots are empty and of the next generation, and the
order of the variables in a frame and of the functions held has no influence. -/
theorem collect_frees_exactly_garbage (policy : Policy) (n : Nat) (ops : List Client.Operation) :
    let c := Client.run policy n ops
    let left := c.arena.collect c.held
    (∀ x, c.arena.Live x → (left.Live x ↔ c.arena.Needed c.held x)) ∧
      c.arena.KeepsExactly (c.arena.Needed c.held) left ∧
      ∀ b held, c.arena.Reordered b → c.held.Perm held → left.Reordered (b.collect held) := by
  intro c left
  have h := Client.accounted_run policy n ops
  have hkeeps : c.arena.KeepsExactly (c.arena.Needed c.held) left := by
    refine (Arena.keepsExactly_collect h.reclaims c.held).congr fun x => ?_
    exact Arena.reaches_roots_iff (fun fn hfn => h.known fn (.inr hfn)) h.distinct
  exact ⟨fun x => hkeeps.live_iff, hkeeps, fun b held hb hheld => hb.collect hheld⟩

/-- A frame is pushed inside a frame that is gone, into the same slot, and binds the one function
made in it; another function stays held. -/
def Client.abandonedScope : List Client.Operation :=
  [.push 0, .release 1, .push 1, .enter 2, .closure default, .define "f" (.function 0), .enter 0,
    .push 0, .enter 3, .closure default, .define "g" (.function 1), .enter 0, .release 2,
    .release 3, .drop 0]

/-- A function held by its own frame only does not keep that frame; one held outside does. -/
theorem collect_frees_abandonedScope :
    let c := Client.run .strict 0 Client.abandonedScope
    ¬ c.arena.Needed c.held ⟨1, 1⟩ ∧ c.arena.Needed c.held ⟨2, 0⟩ := by
  have h := (collect_frees_exactly_garbage .strict 0 Client.abandonedScope).1
  -- whether a frame is needed is read off the collection, which can be computed
  refine ⟨fun hneeded => ?_, (h ⟨2, 0⟩ (by decide +kernel)).1 (by decide +kernel)⟩
  exact absurd ((h ⟨1, 1⟩ (by decide +kernel)).2 hneeded) (by decide +kernel)

end Script
