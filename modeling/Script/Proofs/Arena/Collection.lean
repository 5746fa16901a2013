import Script.Proofs.Arena.Marking

/-!
# What a collection frees

A collection finds the functions held outside the arena by counting holders, marks what can be
reached, and frees the slots left unmarked.

- `getD_tally`, `mem_roots_iff`: counting finds the functions that are held outside.
- `getElem?_sweep`: what happens to each slot when the unmarked ones are freed.
- `frame?_collect_iff`: the frames after a collection are those that could be reached before.
- `Tidy.collect`, `Tidy.release`: collecting and releasing keep an arena tidy.
-/

namespace Script

namespace Arena

variable {a : Arena} {outside : List Closure} {x y : Handle} {f : Frame} {fn : Closure}

/-! ## Counting holders -/

/-- How often a function is listed. -/
def count (fs : List Closure) (identity : Nat) : Nat := fs.countP fun fn => fn.identity = identity

theorem count_append (fs gs : List Closure) (n : Nat) :
    count (fs ++ gs) n = count fs n + count gs n :=
  List.countP_append

/-- A function is listed at all if its count is positive. -/
theorem count_pos_iff {fs : List Closure} {n : Nat} :
    0 < count fs n ↔ ∃ fn ∈ fs, fn.identity = n := by
  simp [count, List.countP_pos_iff]

theorem getD_tally (fs : List Closure) (n : Nat) : (tally fs).getD n 0 = count fs n := by
  -- for any counts to begin with, as the fold goes on from those of the functions before
  suffices ∀ counts : Std.TreeMap Nat Nat,
      (fs.foldl (fun counts fn => counts.insert fn.identity (counts.getD fn.identity 0 + 1))
        counts).getD n 0 = counts.getD n 0 + count fs n by
    simpa [tally] using this ∅
  induction fs with
  | nil => simp [count]
  | cons fn fs ih =>
    intro counts
    rw [List.foldl_cons, ih, Std.TreeMap.getD_insert]
    by_cases h : fn.identity = n
    · subst h
      rw [if_pos (Nat.compare_eq_eq.2 rfl), count, count, List.countP_cons_of_pos (by simp)]
      omega
    · rw [if_neg (by simpa using h), count, count, List.countP_cons_of_neg (by simpa using h)]

/-- The functions bound in frames are listed over the slots. -/
theorem mem_boundFunctions_iff : fn ∈ a.boundFunctions ↔ a.Binds fn := by
  unfold boundFunctions
  rw [List.mem_flatMap]
  constructor
  · rintro ⟨⟨n, frame⟩, hmem, hfn⟩
    obtain ⟨i, hi⟩ := List.mem_iff_getElem?.1 hmem
    rw [Array.getElem?_toList] at hi
    cases frame with
    | none => cases hfn
    | some f => exact ⟨⟨i, n⟩, f, frame?_eq_some_iff.2 hi, hfn⟩
  · rintro ⟨x, f, hf, hfn⟩
    rw [frame?_eq_some_iff, ← Array.getElem?_toList] at hf
    exact ⟨_, List.mem_of_getElem? hf, hfn⟩

/-- **The functions found by counting are those held outside**: a known function has more holders
than bindings exactly if something outside the arena holds it. -/
theorem mem_roots_iff : x ∈ a.roots outside ↔
    x = global ∨ x = a.current ∨ x ∈ a.active ∨
      ∃ fn ∈ a.known, (∃ g ∈ outside, g.identity = fn.identity) ∧ fn.captured = x := by
  have hcount : ∀ fn : Closure,
      (tally a.boundFunctions).getD fn.identity 0 < (a.holders outside).getD fn.identity 0 ↔
        ∃ g ∈ outside, g.identity = fn.identity := by
    intro fn
    -- the holders are the bindings and what is outside, and the bindings cancel out
    rw [holders, getD_tally, getD_tally, count_append, ← count_pos_iff]
    omega
  simp [roots, hcount, and_assoc]

/-- A function stays known as long as a frame or something outside the arena holds it. -/
theorem mem_known_forget_iff : fn ∈ (a.forget outside).known ↔
    fn ∈ a.known ∧ ∃ g, (a.Binds g ∨ g ∈ outside) ∧ g.identity = fn.identity := by
  have hcount : 0 < (a.holders outside).getD fn.identity 0 ↔
      ∃ g, (a.Binds g ∨ g ∈ outside) ∧ g.identity = fn.identity := by
    rw [holders, getD_tally, count_pos_iff]
    simp only [List.mem_append, mem_boundFunctions_iff]
  simp only [forget, List.mem_filter, decide_eq_true_iff, hcount]

/-- Forgetting functions that nothing holds forgets no root. -/
theorem mem_roots_forget_iff : x ∈ (a.forget outside).roots outside ↔ x ∈ a.roots outside := by
  rw [mem_roots_iff, mem_roots_iff]
  refine or_congr Iff.rfl (or_congr Iff.rfl (or_congr Iff.rfl ⟨?_, ?_⟩))
  · rintro ⟨fn, hfn, h⟩
    exact ⟨fn, (mem_known_forget_iff.1 hfn).1, h⟩
  · rintro ⟨fn, hfn, ⟨g, hg, hid⟩, hx⟩
    exact ⟨fn, mem_known_forget_iff.2 ⟨hfn, g, .inr hg, hid⟩, ⟨g, hg, hid⟩, hx⟩

/-! ## Freeing the unmarked slots -/

/-- Freeing slots changes the slots and the free list and nothing else. -/
theorem foldl_freeSlot_eq (a : Arena) (is : List Nat) :
    is.foldl freeSlot a =
      { a with slots := (is.foldl freeSlot a).slots, free := (is.foldl freeSlot a).free } := by
  induction is generalizing a with
  | nil => rfl
  | cons i is ih =>
    rw [List.foldl_cons, ih]
    unfold freeSlot
    split <;> rfl

theorem slots_freeSlot (h : a.reclaims = true) (i j : Nat) :
    (a.freeSlot i).slots[j]? =
      if i = j then (a.slots[j]?).map fun s => ⟨s.generation + 1, none⟩ else a.slots[j]? := by
  simp only [freeSlot, h, if_true, Array.getElem?_modify]

/-- Freed one after the other, each slot is emptied and its generation advanced once. -/
theorem slots_foldl_freeSlot (h : a.reclaims = true) {is : List Nat} (hnodup : is.Nodup) (j : Nat) :
    (is.foldl freeSlot a).slots[j]? =
      if j ∈ is then (a.slots[j]?).map fun s => ⟨s.generation + 1, none⟩ else a.slots[j]? := by
  induction is generalizing a with
  | nil => simp
  | cons i is ih =>
    obtain ⟨hi, hnodup⟩ := List.nodup_cons.1 hnodup
    have hreclaims : (a.freeSlot i).reclaims = true := by simp [freeSlot, h]
    rw [List.foldl_cons, ih hreclaims hnodup, slots_freeSlot h]
    by_cases hj : i = j
    · subst hj
      simp [hi]
    · simp [hj, Ne.symm hj]

theorem isOccupied_iff {i : Nat} :
    a.isOccupied i = true ↔ ∃ n f, a.slots[i]? = some ⟨n, some f⟩ := by
  unfold isOccupied
  cases hslot : a.slots[i]? with
  | none => simp
  | some s =>
    obtain ⟨n, frame⟩ := s
    cases frame <;> simp

theorem mem_unmarked_iff {m : Array Bool} {i : Nat} :
    i ∈ a.unmarked m ↔ (∃ n f, a.slots[i]? = some ⟨n, some f⟩) ∧ ¬ Marked m i := by
  have hmarked : (m[i]?).getD false = true ↔ Marked m i := by
    unfold Marked
    cases m[i]? <;> simp
  rw [unmarked, List.mem_filter, Bool.and_eq_true, isOccupied_iff, Bool.not_eq_true',
    ← Bool.not_eq_true, hmarked]
  refine ⟨fun h => h.2, fun h => ⟨?_, h⟩⟩
  obtain ⟨⟨n, f, hslot⟩, -⟩ := h
  exact List.mem_range.2 (Array.getElem?_eq_some_iff.1 hslot).1

theorem nodup_unmarked (a : Arena) (m : Array Bool) : (a.unmarked m).Nodup :=
  List.nodup_range.filter _

/-- A slot that holds a frame and is not marked is emptied and its generation advanced; all others
stay as they are. -/
theorem getElem?_sweep (h : a.reclaims = true) (m : Array Bool) (i : Nat) :
    (a.sweep m).slots[i]? = if i ∈ a.unmarked m then
      (a.slots[i]?).map fun s => ⟨s.generation + 1, none⟩ else a.slots[i]? :=
  slots_foldl_freeSlot h (nodup_unmarked a m) i

theorem sweep_of_keeps (h : a.reclaims = false) (m : Array Bool) : a.sweep m = a := by
  unfold sweep
  induction a.unmarked m with
  | nil => rfl
  | cons i is ih => rw [List.foldl_cons, freeSlot_of_keeps h, ih]

theorem Tidy.foldl_freeSlot (h : a.Tidy) {is : List Nat} (hnodup : is.Nodup)
    (his : ∀ i ∈ is, ∃ n f, a.slots[i]? = some ⟨n, some f⟩) : (is.foldl Arena.freeSlot a).Tidy := by
  induction is generalizing a with
  | nil => exact h
  | cons i is ih =>
    obtain ⟨hi, hnodup⟩ := List.nodup_cons.1 hnodup
    refine ih (h.freeSlot (his i List.mem_cons_self)) hnodup fun j hj => ?_
    -- freeing one slot leaves the frames in the others
    obtain ⟨n, f, hslot⟩ := his j (List.mem_cons_of_mem _ hj)
    refine ⟨n, f, ?_⟩
    cases hr : a.reclaims with
    | false => rwa [freeSlot_of_keeps hr]
    | true =>
      rw [slots_freeSlot hr, if_neg]
      · exact hslot
      · rintro rfl
        exact hi hj

theorem Tidy.sweep (h : a.Tidy) (m : Array Bool) : (a.sweep m).Tidy :=
  h.foldl_freeSlot (nodup_unmarked a m) fun _ hi => (mem_unmarked_iff.1 hi).1

/-! ## Collecting -/

theorem Reaches.congr {b : Arena} {start start' : List Handle}
    (hframe : ∀ x, b.frame? x = a.frame? x) (hstart : ∀ x ∈ start, x ∈ start')
    (h : a.Reaches start x) : b.Reaches start' x := by
  induction h with
  | start hmem => exact .start (hstart _ hmem)
  | link _ hf hmem ih => exact .link ih ((hframe _).trans hf) hmem

/-- The marks of a collection are on the slots of frames that can be reached from the roots. -/
theorem marked_collect_iff (hx : a.Live x) :
    Marked ((a.forget outside).mark (Array.replicate (a.forget outside).slots.size false)
      ((a.forget outside).roots outside)) x.index ↔ a.Reaches (a.roots outside) x := by
  rw [mark_iff]
  constructor
  · rintro ⟨y, hindex, hlive, hreach⟩
    obtain rfl := Live.ext hlive hx hindex
    exact Reaches.congr (a := a.forget outside) (fun _ => rfl) (fun _ => mem_roots_forget_iff.1)
      hreach
  · intro hreach
    exact ⟨x, rfl, hx, Reaches.congr (a := a) (fun _ => rfl) (fun _ => mem_roots_forget_iff.2)
      hreach⟩

/-- **Collecting frees what cannot be reached**, and leaves the other frames as they are. -/
theorem frame?_collect_iff (h : a.reclaims = true) :
    (a.collect outside).frame? x = some f ↔
      a.frame? x = some f ∧ a.Reaches (a.roots outside) x := by
  rw [frame?_eq_some_iff]
  show ((a.forget outside).sweep _).slots[x.index]? = _ ↔ _
  rw [getElem?_sweep (a := a.forget outside) h]
  constructor
  · intro hf
    split at hf
    · cases hs : (a.forget outside).slots[x.index]? <;> simp [hs] at hf
    · rename_i hnot
      have hlive : a.frame? x = some f := frame?_eq_some_iff.2 hf
      refine ⟨hlive, (marked_collect_iff ⟨f, hlive⟩).1 (Classical.byContradiction fun hm => ?_)⟩
      exact hnot (mem_unmarked_iff.2 ⟨⟨_, f, hf⟩, hm⟩)
  · rintro ⟨hf, hreach⟩
    have hm := (marked_collect_iff ⟨f, hf⟩).2 hreach
    rw [if_neg fun hnot => (mem_unmarked_iff.1 hnot).2 hm]
    exact frame?_eq_some_iff.1 hf

/-- An arena that keeps every frame keeps them in a collection. -/
theorem frame?_collect_of_keeps (h : a.reclaims = false) (x : Handle) :
    (a.collect outside).frame? x = a.frame? x := by
  show ((a.forget outside).sweep _).frame? x = _
  rw [sweep_of_keeps (a := a.forget outside) h]
  rfl

theorem within_collect (a : Arena) (outside : List Closure) : (a.collect outside).Within a := by
  intro x f hf
  cases h : a.reclaims with
  | false => rwa [frame?_collect_of_keeps h] at hf
  | true => exact ((frame?_collect_iff h).1 hf).1

/-- What can be reached from the roots is left as it is. -/
theorem frame?_collect_of_reaches (hreach : a.Reaches (a.roots outside) x)
    (hf : a.frame? x = some f) : (a.collect outside).frame? x = some f := by
  cases h : a.reclaims with
  | false => rwa [frame?_collect_of_keeps h]
  | true => exact (frame?_collect_iff h).2 ⟨hf, hreach⟩

/-- A frame that is left keeps the frames it refers to. -/
theorem live_collect_of_link (hf : (a.collect outside).frame? x = some f) (hy : y ∈ f.links)
    (hlive : a.Live y) : (a.collect outside).Live y := by
  obtain ⟨g, hg⟩ := hlive
  cases h : a.reclaims with
  | false => exact ⟨g, (frame?_collect_of_keeps h y).trans hg⟩
  | true =>
    obtain ⟨hf, hreach⟩ := (frame?_collect_iff h).1 hf
    exact ⟨g, (frame?_collect_iff h).2 ⟨hg, .link hreach hf hy⟩⟩

theorem sweep_eq (a : Arena) (m : Array Bool) :
    a.sweep m = { a with slots := (a.sweep m).slots, free := (a.sweep m).free } :=
  foldl_freeSlot_eq a _

@[simp] theorem active_collect (a : Arena) (outside : List Closure) :
    (a.collect outside).active = a.active := by
  rw [collect, sweep_eq]
  rfl

@[simp] theorem current_collect (a : Arena) (outside : List Closure) :
    (a.collect outside).current = a.current := by
  rw [collect, sweep_eq]
  rfl

@[simp] theorem known_collect (a : Arena) (outside : List Closure) :
    (a.collect outside).known = (a.forget outside).known := by
  rw [collect, sweep_eq]

@[simp] theorem nextFunction_collect (a : Arena) (outside : List Closure) :
    (a.collect outside).nextFunction = a.nextFunction := by
  rw [collect, sweep_eq]
  rfl

@[simp] theorem policy_collect (a : Arena) (outside : List Closure) :
    (a.collect outside).policy = a.policy := by
  rw [collect, sweep_eq]
  rfl

@[simp] theorem reclaims_collect (a : Arena) (outside : List Closure) :
    (a.collect outside).reclaims = a.reclaims := by
  rw [collect, sweep_eq]
  rfl

theorem Tidy.collect (h : a.Tidy) (outside : List Closure) : (a.collect outside).Tidy :=
  Tidy.congr ((h.congr (b := a.forget outside) rfl rfl).sweep _) rfl rfl

/-! ## Releasing -/

/-- A frame whose scope ends is gone already, or is pinned and counted, or is freed. -/
theorem retire_cases (a : Arena) (x : Handle) :
    (a.frame? x = none ∧ a.retire x = { a with active := a.active.erase x }) ∨
    (∃ f, a.frame? x = some f ∧ f.pinned = true ∧
      a.retire x = { a with active := a.active.erase x, retained := a.retained + 1 }) ∨
    ∃ f, a.frame? x = some f ∧ f.pinned = false ∧
      a.retire x = ({ a with active := a.active.erase x } : Arena).freeSlot x.index := by
  have hsame : ({ a with active := a.active.erase x } : Arena).frame? x = a.frame? x := rfl
  unfold retire
  simp only [hsame]
  cases hf : a.frame? x with
  | none => exact .inl ⟨rfl, rfl⟩
  | some f =>
    cases hpinned : f.pinned with
    | true => exact .inr (.inl ⟨f, rfl, hpinned, by simp [hpinned]⟩)
    | false => exact .inr (.inr ⟨f, rfl, hpinned, by simp [hpinned]⟩)

theorem within_retire (a : Arena) (x : Handle) : (a.retire x).Within a := by
  rcases retire_cases a x with ⟨-, h⟩ | ⟨f, -, -, h⟩ | ⟨f, -, -, h⟩
  · rw [h]
    exact Within.refl a
  · rw [h]
    exact Within.refl a
  · rw [h]
    exact within_freeSlot { a with active := a.active.erase x } x.index

/-- Ending a scope frees at most the frame of that scope. -/
theorem frame?_retire_of_ne (hf : a.frame? y = some f) (hne : y ≠ x) :
    (a.retire x).frame? y = some f := by
  rcases retire_cases a x with ⟨-, h⟩ | ⟨g, -, -, h⟩ | ⟨g, hg, -, h⟩
  · rw [h]
    exact hf
  · rw [h]
    exact hf
  · rw [h]
    refine frame?_freeSlot_of_ne (a := { a with active := a.active.erase x }) hf fun hindex => ?_
    exact hne (Live.ext ⟨f, hf⟩ ⟨g, hg⟩ hindex)

theorem Tidy.retire (h : a.Tidy) (x : Handle) : (a.retire x).Tidy := by
  rcases retire_cases a x with ⟨-, hx⟩ | ⟨f, -, -, hx⟩ | ⟨f, hf, -, hx⟩
  · rw [hx]
    exact h.congr rfl rfl
  · rw [hx]
    exact h.congr rfl rfl
  · rw [hx]
    have hx : ({ a with active := a.active.erase x } : Arena).Tidy := h.congr rfl rfl
    exact hx.freeSlot ⟨_, f, frame?_eq_some_iff.1 hf⟩

/-- Ending a scope changes the slots, the free list, the active frames and the count of retained
frames, and nothing else. -/
theorem retire_eq (a : Arena) (x : Handle) :
    a.retire x = { a with
      slots := (a.retire x).slots
      free := (a.retire x).free
      active := a.active.erase x
      retained := (a.retire x).retained } := by
  rcases retire_cases a x with ⟨-, h⟩ | ⟨f, -, -, h⟩ | ⟨f, -, -, h⟩
  · rw [h]
  · rw [h]
  · rw [h]
    unfold freeSlot
    split <;> rfl

@[simp] theorem active_retire (a : Arena) (x : Handle) :
    (a.retire x).active = a.active.erase x := by
  rw [retire_eq]

@[simp] theorem current_retire (a : Arena) (x : Handle) : (a.retire x).current = a.current := by
  rw [retire_eq]

@[simp] theorem known_retire (a : Arena) (x : Handle) : (a.retire x).known = a.known := by
  rw [retire_eq]

@[simp] theorem nextFunction_retire (a : Arena) (x : Handle) :
    (a.retire x).nextFunction = a.nextFunction := by
  rw [retire_eq]

@[simp] theorem policy_retire (a : Arena) (x : Handle) : (a.retire x).policy = a.policy := by
  rw [retire_eq]

@[simp] theorem reclaims_retire (a : Arena) (x : Handle) :
    (a.retire x).reclaims = a.reclaims := by
  rw [retire_eq]

theorem release_cases (a : Arena) (x : Handle) (outside : List Closure) :
    a.release x outside = a.retire x ∨ a.release x outside = (a.retire x).collect outside := by
  unfold release
  split
  · exact .inr rfl
  · exact .inl rfl

theorem within_release (a : Arena) (x : Handle) (outside : List Closure) :
    (a.release x outside).Within a := by
  rcases release_cases a x outside with h | h
  · rw [h]
    exact within_retire a x
  · rw [h]
    exact (within_collect _ _).trans (within_retire a x)

theorem Tidy.release (h : a.Tidy) (x : Handle) (outside : List Closure) :
    (a.release x outside).Tidy := by
  rcases release_cases a x outside with hx | hx
  · rw [hx]
    exact h.retire x
  · rw [hx]
    exact (h.retire x).collect outside

@[simp] theorem active_release (a : Arena) (x : Handle) (outside : List Closure) :
    (a.release x outside).active = a.active.erase x := by
  rcases release_cases a x outside with h | h <;> simp [h]

@[simp] theorem current_release (a : Arena) (x : Handle) (outside : List Closure) :
    (a.release x outside).current = a.current := by
  rcases release_cases a x outside with h | h <;> simp [h]

@[simp] theorem nextFunction_release (a : Arena) (x : Handle) (outside : List Closure) :
    (a.release x outside).nextFunction = a.nextFunction := by
  rcases release_cases a x outside with h | h <;> simp [h]

@[simp] theorem policy_release (a : Arena) (x : Handle) (outside : List Closure) :
    (a.release x outside).policy = a.policy := by
  rcases release_cases a x outside with h | h <;> simp [h]

@[simp] theorem reclaims_release (a : Arena) (x : Handle) (outside : List Closure) :
    (a.release x outside).reclaims = a.reclaims := by
  rcases release_cases a x outside with h | h <;> simp [h]

end Arena

end Script
