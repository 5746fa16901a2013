import Mathlib.Data.List.Perm.Subperm
import Script.Proofs.Arena.Frames

/-!
# Walks along the scope chain

Names are looked up, and functions made, by walking from the innermost scope outwards. The walk of
an arena stops after as many frames as there are slots; that this cuts no walk short is shown here.

- `Arena.Walk`: the frames met on the way outwards, with no bound on their number.
- `Arena.Grounded`: every walk ends. Pushing inside a frame that exists, changing what a frame binds
  and freeing frames keep an arena grounded.
- `chain_eq_of_walk`: a walk that ends meets what `Arena.chain` lists.
- `define_cases`, `assign_cases`, `frame?_closure`: what the operations on variables and functions
  do to the frames.
-/

namespace Script

/-! ## The functions of a frame -/

namespace Frame

variable {f : Frame} {name : String} {v : Value} {fn : Closure}

@[simp] theorem parent_pin (f : Frame) : f.pin.parent = f.parent := rfl

@[simp] theorem functions_pin (f : Frame) : f.pin.functions = f.functions := rfl

theorem parent_mem_links {p : Handle} (h : f.parent = some p) : p ∈ f.links :=
  List.mem_append_left _ (Option.mem_toList.2 h)

theorem captured_mem_links (h : fn ∈ f.functions) : fn.captured ∈ f.links :=
  List.mem_append_right _ (List.mem_map_of_mem h)

/-- The functions of a variable's value are functions of its frame. -/
theorem mem_functions_of_get? (h : f.get? name = some v) (hfn : fn ∈ v.functions) :
    fn ∈ f.functions := by
  suffices ∃ b ∈ f.bindings, b.2 = v by
    obtain ⟨b, hb, rfl⟩ := this
    exact List.mem_flatMap.2 ⟨b, hb, hfn⟩
  unfold get? at h
  generalize f.bindings = bs at h ⊢
  induction bs with
  | nil => cases h
  | cons b rest ih =>
    rw [getBinding] at h
    split at h
    · exact ⟨b, List.mem_cons_self, Option.some.inj h⟩
    · obtain ⟨b', hb', hv⟩ := ih h
      exact ⟨b', List.mem_cons_of_mem _ hb', hv⟩

/-- A frame with a variable set binds the functions it bound before and those of the value. -/
theorem mem_functions_put (h : fn ∈ (f.put name v).functions) :
    fn ∈ f.functions ∨ fn ∈ v.functions := by
  unfold functions put at *
  simp only at h
  generalize f.bindings = bs at h ⊢
  induction bs with
  | nil =>
    right
    simpa [putBinding] using h
  | cons b rest ih =>
    rw [putBinding] at h
    split at h
    · rw [List.flatMap_cons, List.mem_append] at h
      rcases h with h | h
      · exact .inr h
      · exact .inl (by rw [List.flatMap_cons, List.mem_append]; exact .inr h)
    · rw [List.flatMap_cons, List.mem_append] at h ⊢
      rcases h with h | h
      · exact .inl (.inl h)
      · exact (ih h).imp .inr id

end Frame

namespace Arena

variable {a b : Arena} {o : Option Handle} {x p : Handle} {f : Frame}
  {l l' : List (Handle × Frame)}

/-! ## Walks -/

/-- Going outwards along the parents meets these frames, and ends where there is no parent or where
the parent's handle names no frame. -/
inductive Walk (a : Arena) : Option Handle → List (Handle × Frame) → Prop
  | outermost : Walk a none []
  | lost {x : Handle} : a.frame? x = none → Walk a (some x) []
  | inside {x : Handle} {f : Frame} {l : List (Handle × Frame)} :
    a.frame? x = some f → Walk a f.parent l → Walk a (some x) ((x, f) :: l)

/-- Only one walk begins at a handle. -/
theorem Walk.unique (h : a.Walk o l) (h' : a.Walk o l') : l = l' := by
  induction h generalizing l' with
  | outermost =>
    cases h'
    rfl
  | lost hx =>
    cases h' with
    | lost => rfl
    | inside hx' => simp [hx] at hx'
  | inside hx _ ih =>
    cases h' with
    | lost hx' => simp [hx] at hx'
    | inside hx' hrest =>
      obtain rfl := Option.some.inj (hx.symm.trans hx')
      rw [ih hrest]

/-- A walk meets frames. -/
theorem Walk.frame? (h : a.Walk o l) (hmem : (x, f) ∈ l) : a.frame? x = some f := by
  induction h with
  | outermost => cases hmem
  | lost => cases hmem
  | inside hx _ ih =>
    rcases List.mem_cons.1 hmem with heq | hmem
    · obtain ⟨rfl, rfl⟩ := Prod.mk.inj heq
      exact hx
    · exact ih hmem

/-- What a walk meets from some frame on is the walk from there. -/
theorem Walk.drop (h : a.Walk o l) (hmem : (x, f) ∈ l) :
    ∃ rest, rest.length ≤ l.length ∧ a.Walk (some x) rest := by
  induction h with
  | outermost => cases hmem
  | lost => cases hmem
  | inside hx hrest ih =>
    rcases List.mem_cons.1 hmem with heq | hmem
    · obtain ⟨rfl, rfl⟩ := Prod.mk.inj heq
      exact ⟨_, Nat.le_refl _, .inside hx hrest⟩
    · obtain ⟨rest, hle, hwalk⟩ := ih hmem
      exact ⟨rest, Nat.le_trans hle (Nat.le_succ _), hwalk⟩

/-- A walk meets no slot twice: from the second meeting on it would go on as from the first. -/
theorem Walk.nodup (h : a.Walk o l) : (l.map fun link => link.1.index).Nodup := by
  induction h with
  | outermost => exact List.nodup_nil
  | lost => exact List.nodup_nil
  | @inside x f l hx hrest ih =>
    refine List.nodup_cons.2 ⟨fun hmem => ?_, ih⟩
    obtain ⟨⟨y, g⟩, hy, hindex⟩ := List.mem_map.1 hmem
    have hsame : y = x := Live.ext ⟨g, hrest.frame? hy⟩ ⟨f, hx⟩ hindex
    subst hsame
    -- the walk from the second meeting is as long as the whole, but a part of the rest
    obtain ⟨again, hle, hwalk⟩ := hrest.drop hy
    rw [hwalk.unique (.inside hx hrest)] at hle
    exact absurd hle (Nat.not_succ_le_self _)

/-- A walk is no longer than there are slots. -/
theorem Walk.length_le (h : a.Walk o l) : l.length ≤ a.slots.size := by
  -- the slots met are distinct and among those of the arena
  have hsub : l.map (fun link => link.1.index) ⊆ List.range a.slots.size := by
    intro i hi
    obtain ⟨⟨x, f⟩, hx, rfl⟩ := List.mem_map.1 hi
    exact List.mem_range.2 (Live.index_lt ⟨f, h.frame? hx⟩)
  have := (List.subperm_of_subset h.nodup hsub).length_le
  rwa [List.length_map, List.length_range] at this

theorem Walk.chainFrom_eq (h : a.Walk o l) {fuel : Nat} (hfuel : l.length ≤ fuel) :
    a.chainFrom fuel o = l := by
  induction h generalizing fuel with
  | outermost => cases fuel <;> rfl
  | lost hx =>
    cases fuel with
    | zero => rfl
    | succ fuel => simp [chainFrom, hx]
  | inside hx _ ih =>
    cases fuel with
    | zero => exact absurd hfuel (Nat.not_succ_le_zero _)
    | succ fuel => simp [chainFrom, hx, ih (Nat.le_of_succ_le_succ hfuel)]

/-- The bound on the length of a chain cuts no walk short. -/
theorem chain_eq_of_walk (h : a.Walk (some x) l) : a.chain x = l :=
  h.chainFrom_eq h.length_le

/-- A chain lists frames. -/
theorem frame?_of_mem_chainFrom {fuel : Nat} (h : (x, f) ∈ a.chainFrom fuel o) :
    a.frame? x = some f := by
  fun_induction a.chainFrom fuel o with
  | case1 => cases h
  | case2 => cases h
  | case3 => cases h
  | case4 fuel y g hy ih =>
    rcases List.mem_cons.1 h with heq | h
    · obtain ⟨rfl, rfl⟩ := Prod.mk.inj heq
      exact hy
    · exact ih h

/-! ## Arenas in which every walk ends -/

/-- Every walk ends. -/
def Grounded (a : Arena) : Prop := ∀ x, ∃ l, a.Walk (some x) l

/-- No frame is inside itself. -/
theorem Grounded.parent_ne (h : a.Grounded) (hf : a.frame? x = some f) : f.parent ≠ some x := by
  intro hparent
  obtain ⟨l, hl⟩ := h x
  have := hl.unique (.inside hf (hparent ▸ hl))
  exact absurd (congrArg List.length this) (Nat.ne_of_lt (Nat.lt_succ_self _))

/-- If every frame of `b` is a frame of `a` with the same parent, walks in `b` end no later. -/
theorem Grounded.of_frames (h : a.Grounded)
    (hframe : ∀ x g, b.frame? x = some g → ∃ f, a.frame? x = some f ∧ f.parent = g.parent) :
    b.Grounded := by
  have hwalk : ∀ o l, a.Walk o l → ∃ l', b.Walk o l' := by
    intro o l hl
    -- a walk in `b` follows the one in `a` until a frame is missing
    induction hl with
    | outermost => exact ⟨[], .outermost⟩
    | @lost x hx =>
      refine ⟨[], .lost (not_live_iff.1 ?_)⟩
      rintro ⟨g, hg⟩
      obtain ⟨f, hf, -⟩ := hframe x g hg
      exact absurd ⟨f, hf⟩ (not_live_iff.2 hx)
    | @inside x f l hx _ ih =>
      cases hb : b.frame? x with
      | none => exact ⟨[], .lost hb⟩
      | some g =>
        obtain ⟨f', hf', hparent⟩ := hframe x g hb
        obtain rfl := Option.some.inj (hx.symm.trans hf')
        obtain ⟨l', hl'⟩ := ih
        exact ⟨(x, g) :: l', .inside hb (hparent ▸ hl')⟩
  intro x
  obtain ⟨l, hl⟩ := h x
  exact hwalk _ _ hl

/-- Walks depend on the parents of frames only. -/
theorem Grounded.of_parents (h : a.Grounded)
    (hsame : ∀ x, (b.frame? x).map (·.parent) = (a.frame? x).map (·.parent)) : b.Grounded := by
  refine h.of_frames fun x g hg => ?_
  have hmap := hsame x
  rw [hg, Option.map_some] at hmap
  exact Option.map_eq_some_iff.1 hmap.symm

/-- A walk among fewer frames ends no later. -/
theorem Grounded.within (h : a.Grounded) (hba : b.Within a) : b.Grounded :=
  h.of_frames fun x g hg => ⟨g, hba x g hg, rfl⟩

/-- A frame pushed inside another one leads to the walks that were there before, as no frame is
inside the new one. -/
theorem Grounded.push (h : a.Grounded) (hok : a.Tidy) (hp : p ≠ (a.push p).2)
    (hparents : ∀ x f, a.frame? x = some f → f.parent ≠ some (a.push p).2) :
    (a.push p).1.Grounded := by
  -- no walk of the old arena comes across the new frame
  have hold : ∀ o l, a.Walk o l → o ≠ some (a.push p).2 → (a.push p).1.Walk o l := by
    intro o l hl
    induction hl with
    | outermost => exact fun _ => .outermost
    | @lost x hx =>
      intro hne
      refine .lost ?_
      rw [hok.frame?_push, if_neg fun heq => hne (congrArg some heq), hx]
    | @inside x f l hx _ ih =>
      intro hne
      refine .inside ?_ (ih (hparents x f hx))
      rw [hok.frame?_push, if_neg fun heq => hne (congrArg some heq), hx]
  intro x
  by_cases hx : x = (a.push p).2
  · obtain ⟨l, hl⟩ := h p
    refine ⟨(x, .empty p) :: l, .inside ?_ (hold _ _ hl fun heq => hp (Option.some.inj heq))⟩
    rw [hok.frame?_push, if_pos hx]
  · obtain ⟨l, hl⟩ := h x
    exact ⟨l, hold _ _ hl fun heq => hx (Option.some.inj heq)⟩

theorem grounded_new (policy : Policy) (n : Nat) : (new policy n).Grounded := by
  intro x
  cases hx : (new policy n).frame? x with
  | none => exact ⟨[], .lost hx⟩
  | some f =>
    have hf := hx
    rw [frame?_new] at hf
    split at hf
    · obtain rfl := Option.some.inj hf
      exact ⟨_, .inside hx .outermost⟩
    · cases hf

end Arena

end Script
