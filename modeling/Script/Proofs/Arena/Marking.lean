import Script.Proofs.Arena.Frames

/-!
# What marking marks

Marking begins at given handles and goes from frame to frame. It marks the slots of the frames that
can be reached in this way, all of them and no others.

- `Arena.Reaches`: the handles that can be reached from given ones along the links of frames.
- `Arena.Marked`, `Arena.Covers`: a slot is marked; the links of marked frames are marked or wait.
- `mark_iff`: marking is exact.
-/

namespace Script

namespace Arena

variable {a : Arena} {start work : List Handle} {x y : Handle} {f : Frame} {m : Array Bool}
  {fresh : List Frame} {i : Nat}

/-- A handle can be reached from the handles `start` along the links of frames. -/
inductive Reaches (a : Arena) (start : List Handle) : Handle → Prop
  | start {x : Handle} : x ∈ start → Reaches a start x
  | link {x y : Handle} {f : Frame} :
    Reaches a start x → a.frame? x = some f → y ∈ f.links → Reaches a start y

/-- A set of handles that holds `start` and the links of its frames holds what can be reached. -/
theorem Reaches.least {s : Handle → Prop} (hstart : ∀ x ∈ start, s x)
    (hlink : ∀ x f, s x → a.frame? x = some f → ∀ y ∈ f.links, s y) (h : a.Reaches start x) :
    s x := by
  induction h with
  | start hmem => exact hstart _ hmem
  | link _ hf hmem ih => exact hlink _ _ ih hf _ hmem

/-- A slot is marked. -/
def Marked (m : Array Bool) (i : Nat) : Prop := m[i]? = some true

/-! ## One round -/

@[simp] theorem size_visit (a : Arena) (work : List Handle) (m : Array Bool)
    (fresh : List Frame) : (a.visit work m fresh).1.size = m.size := by
  fun_induction visit a work m fresh with
  | case1 => rfl
  | case2 _ _ _ _ _ ih => exact ih
  | case3 _ _ _ _ _ _ _ _ ih => exact ih
  | case4 _ _ _ _ _ _ _ _ ih => simpa using ih
  | case5 _ _ _ _ _ _ _ ih => exact ih

theorem marked_set_iff {j : Nat} (h : i < m.size) :
    Marked (m.set i true) j ↔ j = i ∨ Marked m j := by
  unfold Marked
  rw [Array.getElem?_set]
  by_cases hj : i = j
  · simp [hj]
  · simp [hj, Ne.symm hj]

/-- A round marks the slots of the frames that the handles name. -/
theorem marked_visit_iff (a : Arena) (work : List Handle) (m : Array Bool) (fresh : List Frame) :
    Marked (a.visit work m fresh).1 i ↔
      Marked m i ∨ i < m.size ∧ ∃ x ∈ work, a.Live x ∧ x.index = i := by
  fun_induction visit a work m fresh with
  | case1 => simp
  | case2 x rest m fresh hx ih =>
    have : ¬ a.Live x := not_live_iff.2 hx
    simp [ih, this]
  | case3 x rest m fresh f hx hin hseen ih =>
    have hmarked : Marked m x.index := by simp [Marked, hin, hseen]
    rw [ih]
    constructor
    · rintro (h | ⟨hi, y, hy, h⟩)
      · exact .inl h
      · exact .inr ⟨hi, y, List.mem_cons_of_mem _ hy, h⟩
    · rintro (h | ⟨hi, y, hy, hlive, rfl⟩)
      · exact .inl h
      · rcases List.mem_cons.1 hy with rfl | hy
        · exact .inl hmarked
        · exact .inr ⟨hi, y, hy, hlive, rfl⟩
  | case4 x rest m fresh f hx hin hseen ih =>
    rw [ih, marked_set_iff hin, Array.size_set]
    constructor
    · rintro ((rfl | h) | ⟨hi, y, hy, h⟩)
      · exact .inr ⟨hin, x, List.mem_cons_self, ⟨f, hx⟩, rfl⟩
      · exact .inl h
      · exact .inr ⟨hi, y, List.mem_cons_of_mem _ hy, h⟩
    · rintro (h | ⟨hi, y, hy, hlive, rfl⟩)
      · exact .inl (.inr h)
      · rcases List.mem_cons.1 hy with rfl | hy
        · exact .inl (.inl rfl)
        · exact .inr ⟨hi, y, hy, hlive, rfl⟩
  | case5 x rest m fresh f hx hin ih =>
    rw [ih]
    constructor
    · rintro (h | ⟨hi, y, hy, h⟩)
      · exact .inl h
      · exact .inr ⟨hi, y, List.mem_cons_of_mem _ hy, h⟩
    · rintro (h | ⟨hi, y, hy, hlive, rfl⟩)
      · exact .inl h
      · rcases List.mem_cons.1 hy with rfl | hy
        · exact absurd hi hin
        · exact .inr ⟨hi, y, hy, hlive, rfl⟩

/-- The fresh frames of a round are frames that the handles name. -/
theorem frame?_of_mem_visit (h : f ∈ (a.visit work m fresh).2) :
    f ∈ fresh ∨ ∃ x ∈ work, a.frame? x = some f := by
  fun_induction visit a work m fresh with
  | case1 => exact .inl h
  | case2 _ _ _ _ _ ih | case3 _ _ _ _ _ _ _ _ ih | case5 _ _ _ _ _ _ _ ih =>
    rcases ih h with h | ⟨y, hy, hf⟩
    · exact .inl h
    · exact .inr ⟨y, List.mem_cons_of_mem _ hy, hf⟩
  | case4 x _ _ _ _ hx _ _ ih =>
    rcases ih h with h | ⟨y, hy, hf⟩
    · rcases List.mem_cons.1 h with rfl | h
      · exact .inr ⟨x, List.mem_cons_self, hx⟩
      · exact .inl h
    · exact .inr ⟨y, List.mem_cons_of_mem _ hy, hf⟩

/-- Fresh frames stay fresh during a round. -/
theorem mem_visit_of_mem_fresh (h : f ∈ fresh) : f ∈ (a.visit work m fresh).2 := by
  fun_induction visit a work m fresh with
  | case1 => exact h
  | case2 _ _ _ _ _ ih | case3 _ _ _ _ _ _ _ _ ih | case5 _ _ _ _ _ _ _ ih => exact ih h
  | case4 _ _ _ _ _ _ _ _ ih => exact ih (List.mem_cons_of_mem _ h)

/-- A frame that the handles name was marked before the round or is fresh after it. -/
theorem marked_or_mem_visit (hx : x ∈ work) (hf : a.frame? x = some f) (hin : x.index < m.size) :
    Marked m x.index ∨ f ∈ (a.visit work m fresh).2 := by
  fun_induction visit a work m fresh with
  | case1 => cases hx
  | case2 y rest m fresh hy ih =>
    rcases List.mem_cons.1 hx with rfl | hx
    · rw [hy] at hf
      cases hf
    · exact ih hx hin
  | case3 y rest m fresh g hy hiny hseen ih =>
    rcases List.mem_cons.1 hx with rfl | hx
    · exact .inl (by simp [Marked, hin, hseen])
    · exact ih hx hin
  | case4 y rest m fresh g hy hiny hseen ih =>
    rcases List.mem_cons.1 hx with rfl | hx
    · obtain rfl := Option.some.inj (hy.symm.trans hf)
      exact .inr (mem_visit_of_mem_fresh List.mem_cons_self)
    · rcases ih hx (by rwa [Array.size_set]) with h | h
      · rcases (marked_set_iff hiny).1 h with h | h
        -- a slot marked in this round just now is that of the same frame
        · have hsame := Live.ext ⟨f, hf⟩ ⟨g, hy⟩ h
          subst hsame
          obtain rfl := Option.some.inj (hy.symm.trans hf)
          exact .inr (mem_visit_of_mem_fresh List.mem_cons_self)
        · exact .inl h
      · exact .inr h
  | case5 y rest m fresh g hy hiny ih =>
    rcases List.mem_cons.1 hx with rfl | hx
    · exact absurd hin hiny
    · exact ih hx hin

/-! ## All rounds -/

/-- The links of marked frames are marked themselves, unless they are on the list `work`. -/
def Covers (a : Arena) (m : Array Bool) (work : List Handle) : Prop :=
  ∀ x f, a.frame? x = some f → Marked m x.index → ∀ y ∈ f.links,
    y ∈ work ∨ (a.Live y → Marked m y.index)

/-- After a round, the links of the fresh frames are what has to be looked at. -/
theorem Covers.visit (h : a.Covers m work) (hsize : m.size = a.slots.size) :
    a.Covers (a.visit work m []).1 ((a.visit work m []).2.flatMap Frame.links) := by
  intro x f hf hmarked y hy
  -- a marked frame was marked before the round, or is fresh
  have hbefore : Marked m x.index ∨ f ∈ (a.visit work m []).2 := by
    rcases (marked_visit_iff ..).1 hmarked with h | ⟨hin, z, hz, hlive, hindex⟩
    · exact .inl h
    · obtain rfl := Live.ext hlive ⟨f, hf⟩ hindex
      exact marked_or_mem_visit hz hf hin
  rcases hbefore with hm | hfresh
  · refine .inr fun hlive => (marked_visit_iff ..).2 ?_
    rcases h x f hf hm y hy with hwork | h
    · exact .inr ⟨hsize ▸ hlive.index_lt, y, hwork, hlive, rfl⟩
    · exact .inl (h hlive)
  · exact .inl (List.mem_flatMap.2 ⟨f, hfresh, hy⟩)

/-- Marking keeps marks, marks what the handles name, and leaves no link of a marked frame out. -/
theorem mark_complete (h : a.Covers m work) (hsize : m.size = a.slots.size) :
    (∀ i, Marked m i → Marked (a.mark m work) i) ∧
      (∀ x ∈ work, a.Live x → Marked (a.mark m work) x.index) ∧
      a.Covers (a.mark m work) [] := by
  fun_induction a.mark m work with
  -- the last round has no fresh frames, and so leaves no links to look at
  | case1 m work next hvisit =>
    have hcovers := h.visit hsize
    have hiff := fun i => marked_visit_iff (i := i) a work m []
    rw [hvisit] at hcovers
    simp only [hvisit] at hiff
    exact ⟨fun i hi => (hiff i).2 (.inl hi),
      fun x hx hlive => (hiff _).2 (.inr ⟨hsize ▸ hlive.index_lt, x, hx, hlive, rfl⟩), hcovers⟩
  | case2 m work next f fresh hvisit ih =>
    have hcovers := h.visit hsize
    have hiff := fun i => marked_visit_iff (i := i) a work m []
    have hsize' := (size_visit a work m []).trans hsize
    rw [hvisit] at hcovers hsize'
    simp only [hvisit] at hiff
    obtain ⟨hkeeps, -, hdone⟩ := ih hcovers hsize'
    exact ⟨fun i hi => hkeeps i ((hiff i).2 (.inl hi)),
      fun x hx hlive =>
        hkeeps _ ((hiff _).2 (.inr ⟨hsize ▸ hlive.index_lt, x, hx, hlive, rfl⟩)), hdone⟩

/-- Marking marks only slots of frames that can be reached. -/
theorem mark_sound (hm : ∀ i, Marked m i → ∃ x, x.index = i ∧ a.Live x ∧ a.Reaches start x)
    (hwork : ∀ x ∈ work, a.Reaches start x) :
    ∀ i, Marked (a.mark m work) i → ∃ x, x.index = i ∧ a.Live x ∧ a.Reaches start x := by
  have hround : ∀ i, Marked (a.visit work m []).1 i →
      ∃ x, x.index = i ∧ a.Live x ∧ a.Reaches start x := by
    intro i hi
    rcases (marked_visit_iff ..).1 hi with hi | ⟨-, x, hx, hlive, rfl⟩
    · exact hm i hi
    · exact ⟨x, rfl, hlive, hwork x hx⟩
  fun_induction a.mark m work with
  | case1 m work next hvisit =>
    rw [hvisit] at hround
    exact hround
  | case2 m work next f fresh hvisit ih =>
    rw [hvisit] at hround
    have hnext : ∀ x ∈ (f :: fresh).flatMap Frame.links, a.Reaches start x := by
      intro x hx
      obtain ⟨g, hg, hlink⟩ := List.mem_flatMap.1 hx
      have hg' : g ∈ (a.visit work m []).2 := by rwa [hvisit]
      rcases frame?_of_mem_visit hg' with h | ⟨y, hy, hf⟩
      · cases h
      · exact .link (hwork y hy) hf hlink
    refine ih hround hnext fun i hi => ?_
    -- the marks of the next round are those of this one and of what its links name
    rcases (marked_visit_iff ..).1 hi with hi | ⟨-, x, hx, hlive, rfl⟩
    · exact hround i hi
    · exact ⟨x, rfl, hlive, hnext x hx⟩

/-- **Marking is exact**: from blank marks it marks the slots of the frames that can be reached. -/
theorem mark_iff (a : Arena) (start : List Handle) (i : Nat) :
    Marked (a.mark (Array.replicate a.slots.size false) start) i ↔
      ∃ x, x.index = i ∧ a.Live x ∧ a.Reaches start x := by
  have hblank : ∀ i, ¬ Marked (Array.replicate a.slots.size false) i := by
    simp [Marked, Array.getElem?_replicate]
  have hcovers : a.Covers (Array.replicate a.slots.size false) start :=
    fun x f _ hm => absurd hm (hblank _)
  obtain ⟨-, hstart, hdone⟩ := mark_complete hcovers (by simp)
  constructor
  · exact mark_sound (fun i hi => absurd hi (hblank i)) (fun x hx => .start hx) i
  · rintro ⟨x, rfl, hlive, hreach⟩
    -- the marked frames are closed under links, and so hold all that can be reached
    refine Reaches.least
      (s := fun x => a.Live x → Marked (a.mark (Array.replicate a.slots.size false) start) x.index)
      hstart ?_ hreach hlive
    intro x f hx hf y hy
    rcases hdone x f hf (hx ⟨f, hf⟩) y hy with h | h
    · cases h
    · exact h

end Arena

end Script
