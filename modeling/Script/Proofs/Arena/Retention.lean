import Mathlib.Data.Set.Card
import Script.Proofs.Arena.Representation

/-!
# Retained frames are bounded

A pinned frame stays when its scope ends, and is counted. The frames are collected as soon as as
many were counted as a threshold says, which is set anew by each collection. So the frames that no
scope needs any more cannot grow beyond what the last collection left and the threshold it set.

- `Arena.fills`: releasing a frame makes the count reach the threshold.
- `Arena.Retains`: the invariant that ties live frames, active frames and the two counters together;
  one lemma for each operation.
- `live_collect`: a collection leaves as many frames as could be reached.
- `Client.survivors`: the frames that were left by the last collection in the course of events.
- `Retains.meet`, `retains_history`: the invariant along every history.
-/

namespace Script

namespace Arena

variable {a b : Arena} {S : Nat} {x y p : Handle} {outside : List Closure}

/-! ## The number of live frames -/

/-- The number of live frames is the number of handles that name one. -/
theorem Tidy.live_eq_ncard (h : a.Tidy) : a.live = {x | a.Live x}.ncard := by
  have himage : (Handle.index '' {x | a.Live x}) =
      ((List.range a.slots.size).filter a.isOccupied).toFinset := by
    ext i
    simp only [Set.mem_image, Set.mem_ofPred_eq, List.coe_toFinset, List.mem_filter, List.mem_range,
      isOccupied_iff]
    constructor
    · rintro ⟨x, hx, rfl⟩
      obtain ⟨f, hf⟩ := hx
      exact ⟨Live.index_lt ⟨f, hf⟩, _, f, frame?_eq_some_iff.1 hf⟩
    · rintro ⟨-, n, f, hslot⟩
      exact ⟨⟨i, n⟩, ⟨f, frame?_eq_some_iff.2 hslot⟩, rfl⟩
  have hinj : Set.InjOn Handle.index {x | a.Live x} := fun x hx y hy hindex =>
    Live.ext hx hy hindex
  rw [h.live_eq, List.countP_eq_length_filter, ← hinj.ncard_image, himage,
    Set.ncard_coe_finset, List.toFinset_card_of_nodup (List.nodup_range.filter _)]

/-- **A collection leaves as many frames as could be reached.** -/
theorem live_collect (h : a.Tidy) (hr : a.reclaims = true) (outside : List Closure) :
    (a.collect outside).live = {x | a.Live x ∧ a.Reaches (a.roots outside) x}.ncard := by
  rw [(h.collect outside).live_eq_ncard]
  congr 1
  ext x
  constructor
  · rintro ⟨f, hf⟩
    obtain ⟨hf, hreach⟩ := (frame?_collect_iff hr).1 hf
    exact ⟨⟨f, hf⟩, hreach⟩
  · rintro ⟨⟨f, hf⟩, hreach⟩
    exact ⟨f, (frame?_collect_iff hr).2 ⟨hf, hreach⟩⟩

theorem live_push_le (a : Arena) (p : Handle) : (a.push p).1.live ≤ a.live + 1 := by
  unfold push live
  split
  · rename_i hfree
    simp only [hfree, Array.size_push, List.length_nil]
    omega
  · rename_i i rest hfree
    simp only [hfree, Array.size_modify, List.length_cons]
    omega

theorem live_freeSlot (h : a.reclaims = true) (i : Nat) : (a.freeSlot i).live = a.live - 1 := by
  simp only [live, freeSlot, h, if_true, Array.size_modify, List.length_cons]
  omega

/-! ## The invariant -/

/-- Releasing the frame that a handle names makes as many pinned frames released as are needed for
a collection. -/
def fills (a : Arena) (x : Handle) : Bool := a.isPinned x && decide (a.threshold ≤ a.retained + 1)

theorem release_eq (a : Arena) (x : Handle) (outside : List Closure) :
    a.release x outside = if a.fills x then (a.retire x).collect outside else a.retire x := rfl

/-- The last collection left `S` frames. All frames beyond these that are not active were retained
since, and fewer were retained than the threshold says. -/
structure Retains (S : Nat) (a : Arena) : Prop where
  reclaims : a.reclaims = true
  tidy : a.Tidy
  active : ∀ x ∈ a.active, a.Live x
  distinct : a.active.Nodup
  live_le : a.live ≤ a.active.length + S + a.retained
  retained_lt : a.retained < a.threshold
  threshold : a.threshold = max (2 * S) minThreshold

/-- The bound on the number of frames. -/
theorem Retains.bound (h : a.Retains S) :
    a.live ≤ a.active.length + S + max (2 * S) minThreshold - 1 := by
  have hlive := h.live_le
  have hretained := h.retained_lt
  rw [h.threshold] at hretained
  omega

theorem retains_new (policy : Policy) (n : Nat) : (new policy n).Retains 1 where
  reclaims := rfl
  tidy := tidy_new policy n
  active _ hx := nomatch hx
  distinct := List.nodup_nil
  live_le := Nat.le_refl 1
  retained_lt := Nat.zero_lt_succ 255
  threshold := rfl

/-- Nothing has to be shown where no frame is pushed, released or collected. -/
theorem Retains.congr (h : a.Retains S) (htidy : b.Tidy) (hlive : ∀ x, b.Live x ↔ a.Live x)
    (hreclaims : b.reclaims = a.reclaims) (hsize : b.live = a.live) (hactive : b.active = a.active)
    (hretained : b.retained = a.retained) (hthreshold : b.threshold = a.threshold) :
    b.Retains S where
  reclaims := hreclaims.trans h.reclaims
  tidy := htidy
  active x hx := (hlive x).2 (h.active x (hactive ▸ hx))
  distinct := hactive ▸ h.distinct
  live_le := by rw [hsize, hactive, hretained]; exact h.live_le
  retained_lt := by rw [hretained, hthreshold]; exact h.retained_lt
  threshold := hthreshold.trans h.threshold

theorem Retains.enter (h : a.Retains S) (x : Handle) : (a.enter x).Retains S :=
  h.congr (h.tidy.congr rfl rfl) (fun _ => Iff.rfl) rfl rfl rfl rfl rfl

theorem live_updateFrame (a : Arena) (x : Handle) (change : Frame → Frame) :
    (a.updateFrame x change).live = a.live := by
  simp only [live, updateFrame, Array.size_modify]

theorem Retains.put (h : a.Retains S) (x : Handle) (name : String) (v : Value) :
    (a.put x name v).Retains S :=
  h.congr (h.tidy.put x name v) (fun _ => live_put_iff) rfl (live_updateFrame ..) rfl rfl rfl

theorem Retains.define (h : a.Retains S) (name : String) (v : Value) :
    (a.define name v).1.Retains S := by
  rcases define_cases a name v with ⟨fault, hd⟩ | ⟨-, hd⟩
  · rw [hd]
    exact h
  · rw [hd]
    exact h.put _ name v

theorem Retains.assign (h : a.Retains S) (name : String) (v : Value) :
    (a.assign name v).1.Retains S := by
  rcases assign_cases a name v with ⟨fault, ha⟩ | ⟨x, -, ha⟩
  · rw [ha]
    exact h
  · rw [ha]
    exact h.put x name v

theorem live_pinAll (a : Arena) (xs : List Handle) : (a.pinAll xs).live = a.live := by
  induction xs generalizing a with
  | nil => rfl
  | cons x xs ih => exact (ih _).trans (live_updateFrame a x Frame.pin)

/-- A function that is made pins frames, which counts only when they are released. -/
theorem Retains.closure (h : a.Retains S) (decl : FunDecl) : (a.closure decl).1.Retains S := by
  refine h.congr (h.tidy.closure decl) (fun _ => live_closure_iff) (reclaims_closure a decl)
    (live_pinAll a a.unpinnedScopes) (active_closure a decl) ?_ ?_
  · show (a.pinAll a.unpinnedScopes).retained = _
    rw [pinAll_eq]
  · show (a.pinAll a.unpinnedScopes).threshold = _
    rw [pinAll_eq]

theorem retained_push (a : Arena) (p : Handle) : (a.push p).1.retained = a.retained := by
  unfold push
  split <;> rfl

theorem threshold_push (a : Arena) (p : Handle) : (a.push p).1.threshold = a.threshold := by
  unfold push
  split <;> rfl

/-- A frame that is pushed is one more that is active. -/
theorem Retains.push (h : a.Retains S) (p : Handle) : (a.push p).1.Retains S where
  reclaims := (reclaims_push a p).trans h.reclaims
  tidy := h.tidy.push p
  active x hx := by
    rw [active_push] at hx
    rw [h.tidy.live_push_iff]
    exact (List.mem_cons.1 hx).imp id (h.active x)
  distinct := by
    rw [active_push]
    exact List.nodup_cons.2
      ⟨fun hx => not_live_iff.2 (h.tidy.frame?_pushed p) (h.active _ hx), h.distinct⟩
  live_le := by
    have hlive := live_push_le a p
    have hle := h.live_le
    rw [active_push, retained_push, List.length_cons]
    omega
  retained_lt := by rw [retained_push, threshold_push]; exact h.retained_lt
  threshold := (threshold_push a p).trans h.threshold

/-! ## Releasing and collecting -/

/-- A scope that ends is active no longer, whether or not it was before. -/
theorem length_active_le (a : Arena) (x : Handle) :
    a.active.length ≤ (a.active.erase x).length + 1 := by
  rw [List.length_erase]
  split <;> omega

/-- What is active after a scope has ended was not its frame, and is still there. -/
theorem Retains.active_retire (h : a.Retains S) (x : Handle) :
    ∀ y ∈ (a.retire x).active, (a.retire x).Live y := by
  intro y hy
  rw [Arena.active_retire, h.distinct.mem_erase_iff] at hy
  obtain ⟨f, hf⟩ := h.active y hy.2
  exact ⟨f, frame?_retire_of_ne hf hy.1⟩

theorem threshold_retire (a : Arena) (x : Handle) : (a.retire x).threshold = a.threshold := by
  rw [retire_eq]

/-- The frame of a scope that ends is gone, or counted as retained instead of active. -/
theorem Retains.live_retire_le (h : a.Retains S) (x : Handle) :
    (a.retire x).live ≤ (a.retire x).active.length + S + (a.retire x).retained := by
  have hle := h.live_le
  have hactive := length_active_le a x
  rw [Arena.active_retire]
  rcases retire_cases a x with ⟨hx, hretire⟩ | ⟨f, -, -, hretire⟩ | ⟨f, -, -, hretire⟩
  · -- a handle that names no frame is not active
    have hnot : x ∉ a.active := fun hmem => not_live_iff.2 hx (h.active x hmem)
    rw [hretire, List.erase_of_not_mem hnot]
    exact hle
  · rw [hretire]
    show a.live ≤ _ + S + (a.retained + 1)
    omega
  · have hlive := live_freeSlot (a := { a with active := a.active.erase x }) h.reclaims x.index
    have hsame : ({ a with active := a.active.erase x } : Arena).live = a.live := rfl
    have hretained : (({ a with active := a.active.erase x } : Arena).freeSlot x.index).retained =
        a.retained := by
      unfold freeSlot
      split <;> rfl
    rw [hretire, hlive, hsame, hretained]
    omega

theorem retained_retire_le (a : Arena) (x : Handle) :
    (a.retire x).retained ≤ a.retained + if a.isPinned x then 1 else 0 := by
  unfold isPinned
  rcases retire_cases a x with ⟨hx, hretire⟩ | ⟨f, hf, hpinned, hretire⟩ | ⟨f, hf, hpinned, hretire⟩
  · simp [hretire, hx]
  · simp [hretire, hf, hpinned]
  · rw [hretire]
    unfold freeSlot
    split <;> simp

/-- A scope that ends is accounted for, unless the count reaches the threshold. -/
theorem Retains.retire (h : a.Retains S) (hfills : a.fills x = false) : (a.retire x).Retains S where
  reclaims := (reclaims_retire a x).trans h.reclaims
  tidy := h.tidy.retire x
  active := h.active_retire x
  distinct := by
    rw [Arena.active_retire]
    exact h.distinct.erase x
  live_le := h.live_retire_le x
  retained_lt := by
    have hretained := retained_retire_le a x
    have hlt := h.retained_lt
    rw [threshold_retire]
    cases hpinned : a.isPinned x with
    | false =>
      rw [hpinned] at hretained
      exact Nat.lt_of_le_of_lt hretained hlt
    | true =>
      rw [fills, hpinned, Bool.true_and, decide_eq_false_iff_not] at hfills
      rw [hpinned, if_pos rfl] at hretained
      omega
  threshold := (threshold_retire a x).trans h.threshold

/-- **A collection starts counting anew**, from the frames it leaves and with a threshold that goes
by their number. -/
theorem retains_collect (hr : a.reclaims = true) (htidy : a.Tidy)
    (hactive : ∀ x ∈ a.active, a.Live x) (hdistinct : a.active.Nodup) (outside : List Closure) :
    (a.collect outside).Retains (a.collect outside).live where
  reclaims := (reclaims_collect a outside).trans hr
  tidy := htidy.collect outside
  active x hx := by
    rw [active_collect] at hx
    obtain ⟨f, hf⟩ := hactive x hx
    exact ⟨f, frame?_collect_of_reaches (.start (mem_roots_iff.2 (.inr (.inr (.inl hx))))) hf⟩
  distinct := by
    rw [active_collect]
    exact hdistinct
  live_le := by
    show _ ≤ _ + _ + 0
    omega
  retained_lt := by
    show 0 < max (2 * (a.collect outside).live) minThreshold
    exact Nat.lt_of_lt_of_le (Nat.zero_lt_succ 255) (Nat.le_max_right ..)
  threshold := rfl

theorem Retains.collect (h : a.Retains S) (outside : List Closure) :
    (a.collect outside).Retains (a.collect outside).live :=
  retains_collect h.reclaims h.tidy h.active h.distinct outside

/-- A release collects if the count reaches the threshold. -/
theorem Retains.release (h : a.Retains S) (x : Handle) (outside : List Closure) :
    (a.release x outside).Retains (if a.fills x then (a.release x outside).live else S) := by
  rw [release_eq]
  cases hfills : a.fills x with
  | false => exact h.retire hfills
  | true =>
    have hdistinct : (a.retire x).active.Nodup := by
      rw [Arena.active_retire]
      exact h.distinct.erase x
    exact retains_collect ((reclaims_retire a x).trans h.reclaims) (h.tidy.retire x)
      (h.active_retire x) hdistinct outside

end Arena

/-! ## Along a history -/

namespace Client

variable {c : Client} {S : Nat}

/-- Whether frames are collected in an event, because the client asks for it or because of a
release. -/
def collects (c : Client) : Event → Bool
  | .operation .collect => true
  | .operation (.release i) =>
    match c.issued[i]? with
    | some x => c.arena.fills x
    | none => false
  | _ => false

/-- How many frames were live right after the last collection in the course of events, when it was
`S` for the last one before. -/
def survivors (c : Client) (S : Nat) : List Event → Nat
  | [] => S
  | e :: events =>
    (c.meet e).survivors (if c.collects e then (c.meet e).arena.live else S) events

/-- **One event keeps the frames accounted for.** -/
theorem retains_meet (h : c.arena.Retains S) (e : Event) :
    (c.meet e).arena.Retains (if c.collects e then (c.meet e).arena.live else S) := by
  cases e with
  | receive fn => exact h
  | operation op =>
    cases op with
    | push i =>
      cases hx : c.issued[i]? with
      | none => simpa [meet, perform, collects, hx] using h
      | some p => simpa [meet, perform, collects, hx] using h.push p
    | enter i =>
      cases hx : c.issued[i]? with
      | none => simpa [meet, perform, collects, hx] using h
      | some x => simpa [meet, perform, collects, hx] using h.enter x
    | release i =>
      cases hx : c.issued[i]? with
      | none => simpa [meet, perform, collects, hx] using h
      | some x => simpa [meet, perform, collects, hx] using h.release x c.held
    | closure decl => exact h.closure decl
    | clone i => exact h
    | drop i => exact h
    | define name arg =>
      cases hv : c.value? arg with
      | none => simpa [meet, perform, collects, hv] using h
      | some v => simpa [meet, perform, collects, hv] using h.define name v
    | assign name arg =>
      cases hv : c.value? arg with
      | none => simpa [meet, perform, collects, hv] using h
      | some v => simpa [meet, perform, collects, hv] using h.assign name v
    | get name =>
      cases hv : c.arena.get? name with
      | none => simpa [meet, perform, collects, hv] using h
      | some v => simpa [meet, perform, collects, hv] using h
    | collect => exact h.collect c.held

/-- Every history keeps the frames accounted for. -/
theorem retains_history (h : c.arena.Retains S) (events : List Event) :
    (events.foldl meet c).arena.Retains (c.survivors S events) := by
  induction events generalizing c S with
  | nil => exact h
  | cons e events ih => exact ih (retains_meet h e)

end Client

end Script
