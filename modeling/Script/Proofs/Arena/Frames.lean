import Script.Arena.Binding
import Script.Arena.Collect

/-!
# The frames of an arena

The slots of an arena are seen through its handles: `Arena.frame?` says which handles name a frame,
and each operation is described by what it does to that map.

- `Arena.Live`, `Arena.Binds`: a handle names a frame; a function is bound in some frame.
- `Arena.Tidy`: the free list names every empty slot once. Every operation keeps an arena tidy.
- `Arena.Within`: an arena has no frame that another one lacks, and none that has changed.
- `frame?_updateFrame`, `frame?_push`, `frame?_freeSlot`: the frames after an operation.
-/

namespace Script

/-- Related options are both empty, or hold related values. -/
theorem rel_cases {α β : Type} {r : α → β → Prop} {o : Option α} {o' : Option β}
    (h : Option.Rel r o o') :
    o = none ∧ o' = none ∨ ∃ x y, o = some x ∧ o' = some y ∧ r x y := by
  cases h with
  | none => exact .inl ⟨rfl, rfl⟩
  | some hxy => exact .inr ⟨_, _, rfl, rfl, hxy⟩

/-! ## Bindings -/

namespace Frame

/-- A value can be changed before or after it is looked up. -/
theorem getBinding_map (g : Value → Value) (name : String) (bindings : List (String × Value)) :
    getBinding name (bindings.map fun b => (b.1, g b.2)) = (getBinding name bindings).map g := by
  induction bindings with
  | nil => rfl
  | cons b rest ih => by_cases h : name = b.1 <;> simp [getBinding, h, ih]

/-- A value can be changed before or after it is bound. -/
theorem putBinding_map (g : Value → Value) (name : String) (v : Value)
    (bindings : List (String × Value)) :
    putBinding name (g v) (bindings.map fun b => (b.1, g b.2)) =
      (putBinding name v bindings).map fun b => (b.1, g b.2) := by
  induction bindings with
  | nil => rfl
  | cons b rest ih => by_cases h : name = b.1 <;> simp [putBinding, h, ih]

end Frame

namespace Arena

variable {a b c : Arena} {x y p : Handle} {f g : Frame}

/-! ## Handles and frames -/

/-- A handle names a frame if its slot holds one of the handle's generation. -/
theorem frame?_eq_some_iff :
    a.frame? x = some f ↔ a.slots[x.index]? = some ⟨x.generation, some f⟩ := by
  unfold frame?
  cases hslot : a.slots[x.index]? with
  | none => simp
  | some s =>
    obtain ⟨n, frame⟩ := s
    by_cases hn : n = x.generation <;> simp [hn]

/-- A handle names a frame. -/
def Live (a : Arena) (x : Handle) : Prop := ∃ f, a.frame? x = some f

instance (a : Arena) (x : Handle) : Decidable (a.Live x) :=
  decidable_of_iff ((a.frame? x).isSome = true) Option.isSome_iff_exists

theorem not_live_iff : ¬ a.Live x ↔ a.frame? x = none := by
  simp [Live, Option.eq_none_iff_forall_ne_some]

/-- The slot of a frame lies inside the arena. -/
theorem Live.index_lt (h : a.Live x) : x.index < a.slots.size := by
  obtain ⟨f, hf⟩ := h
  exact (Array.getElem?_eq_some_iff.1 (frame?_eq_some_iff.1 hf)).1

/-- Two frames never share a slot. -/
theorem Live.ext (hx : a.Live x) (hy : a.Live y) (hindex : x.index = y.index) : x = y := by
  obtain ⟨f, hf⟩ := hx
  obtain ⟨g, hg⟩ := hy
  rw [frame?_eq_some_iff] at hf hg
  rw [hindex, hg] at hf
  obtain ⟨i, n⟩ := x
  obtain ⟨j, m⟩ := y
  simp only [Option.some.injEq, Slot.mk.injEq] at hf
  exact congr (congrArg Handle.mk hindex) hf.1.symm

/-- A function is bound in some frame. -/
def Binds (a : Arena) (fn : Closure) : Prop := ∃ x f, a.frame? x = some f ∧ fn ∈ f.functions

/-- The free list names every empty slot once. -/
structure Tidy (a : Arena) : Prop where
  free_nodup : a.free.Nodup
  mem_free_iff : ∀ i, i ∈ a.free ↔ ∃ n, a.slots[i]? = some ⟨n, none⟩

/-- Every frame of `b` is a frame of `a`, with the same contents. -/
def Within (b a : Arena) : Prop := ∀ x f, b.frame? x = some f → a.frame? x = some f

theorem Within.refl (a : Arena) : a.Within a := fun _ _ h => h

theorem Within.trans (h₁ : c.Within b) (h₂ : b.Within a) : c.Within a :=
  fun x f h => h₂ x f (h₁ x f h)

theorem Within.live (h : b.Within a) (hx : b.Live x) : a.Live x := by
  obtain ⟨f, hf⟩ := hx
  exact ⟨f, h x f hf⟩

theorem Within.binds (h : b.Within a) {fn : Closure} (hfn : b.Binds fn) : a.Binds fn := by
  obtain ⟨x, f, hf, hmem⟩ := hfn
  exact ⟨x, f, h x f hf, hmem⟩

/-! ## New arenas, and arenas that differ in their counters -/

/-- Frames are read off the slots alone. -/
theorem frame?_congr (h : b.slots = a.slots) (x : Handle) : b.frame? x = a.frame? x := by
  simp [frame?, h]

theorem Tidy.congr (h : a.Tidy) (hslots : b.slots = a.slots) (hfree : b.free = a.free) :
    b.Tidy :=
  ⟨hfree ▸ h.free_nodup, fun i => by rw [hslots, hfree]; exact h.mem_free_iff i⟩

/-- A new arena holds the top-level frame only. -/
theorem frame?_new (policy : Policy) (n : Nat) (x : Handle) :
    (new policy n).frame? x = if x = global then some ⟨[], none, true⟩ else none := by
  obtain ⟨i, m⟩ := x
  cases i with
  | zero =>
    by_cases hm : (0 : UInt32) = m
    · simp [frame?, new, global, ← hm]
    · simp [frame?, new, global, hm, Ne.symm hm]
  | succ i => simp [frame?, new, global]

theorem tidy_new (policy : Policy) (n : Nat) : (new policy n).Tidy := by
  refine ⟨List.nodup_nil, fun i => ?_⟩
  cases i <;> simp [new]

@[simp] theorem frame?_enter (a : Arena) (x y : Handle) : (a.enter x).frame? y = a.frame? y := rfl

/-! ## Changing a frame -/

/-- Only the frame that the handle names is changed. -/
theorem frame?_updateFrame (a : Arena) (x y : Handle) (change : Frame → Frame) :
    (a.updateFrame x change).frame? y =
      if y = x then (a.frame? x).map change else a.frame? y := by
  obtain ⟨i, n⟩ := x
  obtain ⟨j, m⟩ := y
  simp only [frame?, updateFrame, Array.getElem?_modify, Handle.mk.injEq]
  by_cases hij : i = j
  · subst hij
    cases hslot : a.slots[i]? with
    | none => simp
    | some s =>
      obtain ⟨l, frame⟩ := s
      by_cases hn : l = n
      · subst hn
        by_cases hm : m = l
        · simp [hm]
        · simp [hm, Ne.symm hm]
      · by_cases hm : m = n
        · simp [hm, hn]
        · simp [hm, hn]
  · simp [hij, Ne.symm hij]

/-- Changing a frame changes none of the handles that name one. -/
theorem live_updateFrame_iff (change : Frame → Frame) :
    (a.updateFrame x change).Live y ↔ a.Live y := by
  unfold Live
  rw [frame?_updateFrame]
  by_cases h : y = x
  · subst h
    cases a.frame? y <;> simp
  · simp [h]

theorem Tidy.updateFrame (h : a.Tidy) (x : Handle) (change : Frame → Frame) :
    (a.updateFrame x change).Tidy := by
  -- the free list is the same, and so are the empty slots
  refine ⟨h.free_nodup, fun i => (h.mem_free_iff i).trans ?_⟩
  simp only [Arena.updateFrame, Array.getElem?_modify]
  by_cases hi : x.index = i
  · subst hi
    cases hslot : a.slots[x.index]? with
    | none => simp
    | some s =>
      obtain ⟨n, frame⟩ := s
      by_cases hn : n = x.generation <;> simp [hn]
  · simp [hi]

/-! ## Pushing -/

@[simp] theorem active_push (a : Arena) (p : Handle) :
    (a.push p).1.active = (a.push p).2 :: a.active := by
  unfold push
  split <;> rfl

@[simp] theorem current_push (a : Arena) (p : Handle) : (a.push p).1.current = a.current := by
  unfold push
  split <;> rfl

@[simp] theorem known_push (a : Arena) (p : Handle) : (a.push p).1.known = a.known := by
  unfold push
  split <;> rfl

@[simp] theorem nextFunction_push (a : Arena) (p : Handle) :
    (a.push p).1.nextFunction = a.nextFunction := by
  unfold push
  split <;> rfl

@[simp] theorem policy_push (a : Arena) (p : Handle) : (a.push p).1.policy = a.policy := by
  unfold push
  split <;> rfl

@[simp] theorem reclaims_push (a : Arena) (p : Handle) : (a.push p).1.reclaims = a.reclaims := by
  unfold push
  split <;> rfl

/-- A slot on the free list holds no frame. -/
theorem Tidy.slot_of_free_cons (h : a.Tidy) {i : Nat} {rest : List Nat}
    (hfree : a.free = i :: rest) : ∃ n, a.slots[i]? = some ⟨n, none⟩ :=
  (h.mem_free_iff i).1 (hfree ▸ List.mem_cons_self)

/-- The handle of a new frame named nothing before. -/
theorem Tidy.frame?_pushed (h : a.Tidy) (p : Handle) : a.frame? (a.push p).2 = none := by
  unfold push
  split
  · simp [frame?]
  · rename_i i rest hfree
    obtain ⟨n, hslot⟩ := h.slot_of_free_cons hfree
    simp [frame?, hslot]

/-- Pushing adds one empty frame and changes no other. -/
theorem Tidy.frame?_push (h : a.Tidy) (p x : Handle) :
    (a.push p).1.frame? x = if x = (a.push p).2 then some (.empty p) else a.frame? x := by
  obtain ⟨j, m⟩ := x
  unfold push
  split
  · simp only [frame?, Array.getElem?_push, Handle.mk.injEq]
    by_cases hj : j = a.slots.size
    · by_cases hm : m = 0 <;> simp [hj, hm, eq_comm]
    · simp [hj]
  · rename_i i rest hfree
    obtain ⟨n, hslot⟩ := h.slot_of_free_cons hfree
    simp only [frame?, hslot, Array.getElem?_modify, Handle.mk.injEq]
    by_cases hij : i = j
    · subst hij
      by_cases hm : m = n <;> simp [hslot, hm, eq_comm]
    · simp [hij, Ne.symm hij]

theorem Tidy.frame?_push_of_live (h : a.Tidy) (p : Handle) (hf : a.frame? x = some f) :
    (a.push p).1.frame? x = some f := by
  rw [h.frame?_push, if_neg, hf]
  rintro rfl
  rw [h.frame?_pushed] at hf
  cases hf

theorem Tidy.live_push_iff (h : a.Tidy) (p : Handle) :
    (a.push p).1.Live x ↔ x = (a.push p).2 ∨ a.Live x := by
  unfold Live
  rw [h.frame?_push]
  by_cases hx : x = (a.push p).2 <;> simp [hx]

/-- A new frame binds nothing. -/
theorem Tidy.binds_push (h : a.Tidy) (p : Handle) {fn : Closure} (hfn : (a.push p).1.Binds fn) :
    a.Binds fn := by
  obtain ⟨x, f, hf, hmem⟩ := hfn
  rw [h.frame?_push] at hf
  split at hf
  · obtain rfl := Option.some.inj hf
    simp [Frame.functions, Frame.empty] at hmem
  · exact ⟨x, f, hf, hmem⟩

theorem Tidy.push (h : a.Tidy) (p : Handle) : (a.push p).1.Tidy := by
  unfold Arena.push
  split
  · refine ⟨h.free_nodup, fun i => (h.mem_free_iff i).trans ?_⟩
    simp only [Array.getElem?_push]
    by_cases hi : i = a.slots.size <;> simp [hi]
  · rename_i i rest hfree
    -- the slot that is used is the first on the free list, and the only one to leave it
    have hnodup := List.nodup_cons.1 (hfree ▸ h.free_nodup)
    refine ⟨hnodup.2, fun j => ?_⟩
    have hj := h.mem_free_iff j
    simp only [hfree, List.mem_cons] at hj
    simp only [Array.getElem?_modify]
    by_cases hij : i = j
    · subst hij
      simpa [Option.map_eq_some_iff] using hnodup.1
    · simpa [hij, Ne.symm hij] using hj

/-! ## Freeing -/

/-- An arena that keeps every frame frees none. -/
theorem freeSlot_of_keeps (h : a.reclaims = false) (i : Nat) : a.freeSlot i = a := by
  simp [freeSlot, h]

/-- Freeing a slot ends whatever frame was in it and no other. -/
theorem frame?_freeSlot (h : a.reclaims = true) (i : Nat) (x : Handle) :
    (a.freeSlot i).frame? x = if x.index = i then none else a.frame? x := by
  simp only [frame?, freeSlot, h, if_true, Array.getElem?_modify]
  by_cases hi : x.index = i
  · subst hi
    cases a.slots[x.index]? <;> simp
  · simp [hi, Ne.symm hi]

theorem within_freeSlot (a : Arena) (i : Nat) : (a.freeSlot i).Within a := by
  intro x f hf
  cases h : a.reclaims with
  | false => rwa [freeSlot_of_keeps h] at hf
  | true =>
    rw [frame?_freeSlot h] at hf
    split at hf
    · cases hf
    · exact hf

/-- Frames in other slots are left alone. -/
theorem frame?_freeSlot_of_ne {i : Nat} (hf : a.frame? x = some f) (hi : x.index ≠ i) :
    (a.freeSlot i).frame? x = some f := by
  cases h : a.reclaims with
  | false => rwa [freeSlot_of_keeps h]
  | true => rwa [frame?_freeSlot h, if_neg hi]

theorem Tidy.freeSlot (h : a.Tidy) {i : Nat} (hi : ∃ n f, a.slots[i]? = some ⟨n, some f⟩) :
    (a.freeSlot i).Tidy := by
  cases hr : a.reclaims with
  | false => rwa [freeSlot_of_keeps hr]
  | true =>
    obtain ⟨n, f, hslot⟩ := hi
    -- only a slot with a frame in it may be freed, or the list would name it twice
    have hnot : i ∉ a.free := by
      rw [h.mem_free_iff, hslot]
      simp
    simp only [Arena.freeSlot, hr, if_true]
    refine ⟨List.nodup_cons.2 ⟨hnot, h.free_nodup⟩, fun j => ?_⟩
    simp only [List.mem_cons, h.mem_free_iff, Array.getElem?_modify]
    by_cases hij : i = j
    · subst hij
      simp [hslot]
    · simp [hij, Ne.symm hij]

end Arena

end Script
