import Script.Proofs.Arena.Resolution
import Script.Proofs.Arena.Retention

/-!
# Every walk ends

Frames form a tree, also if some were pushed inside frames that had been freed. So going outwards
meets no frame twice, and marking, which follows all links of frames, looks at the links of each
frame once.

- `length_le_live`: there are no more distinct frames than live ones.
- `Arena.search`: the loop by which names are looked up, assigned, and functions made: outwards up
  to the first frame of some kind, counting the frames looked at.
- `Arena.Turn`, `Arena.Turns`: the loop of marking, with the worklist taken in any order.
- `turns_mark`: marking is such a loop, run to its end.
- `Turns.nodup`, `Turns.count`: no frame is expanded twice, and how many turns the loop takes.
- `Client.every_walk_ends`: all of this after every history.
-/

namespace Script

namespace Arena

variable {a : Arena} {o : Option Handle} {x y : Handle} {f : Frame} {l : List (Handle × Frame)}
  {n m : Nat}

/-! ## Distinct frames -/

/-- There are no more distinct handles of frames than live frames. -/
theorem length_le_live (h : a.Tidy) {xs : List Handle} (hnodup : xs.Nodup)
    (hlive : ∀ x ∈ xs, a.Live x) : xs.length ≤ a.live := by
  have hfinite : {x | a.Live x}.Finite :=
    Set.finite_coe_iff.1 (inferInstanceAs (Finite {x // a.Live x}))
  have hsub : (xs.toFinset : Set Handle) ⊆ {x | a.Live x} := fun x hx =>
    hlive x (List.mem_toFinset.1 hx)
  have hle := Set.ncard_le_ncard hsub hfinite
  rwa [Set.ncard_coe_finset, List.toFinset_card_of_nodup hnodup, ← h.live_eq_ncard] at hle

/-- A walk meets no frame twice. -/
theorem Walk.nodup_handles (h : a.Walk o l) : (l.map (·.1)).Nodup := by
  have hindex := h.nodup
  rw [show (l.map fun link => link.1.index) = (l.map (·.1)).map Handle.index from
    (List.map_map ..).symm] at hindex
  exact hindex.of_map Handle.index

/-- A walk is no longer than there are live frames. -/
theorem Walk.length_le_live (h : a.Walk o l) (ha : a.Tidy) : l.length ≤ a.live := by
  have hlive : ∀ x ∈ l.map (·.1), a.Live x := by
    intro x hx
    obtain ⟨link, hlink, rfl⟩ := List.mem_map.1 hx
    exact ⟨link.2, h.frame? hlink⟩
  have := Arena.length_le_live ha h.nodup_handles hlive
  rwa [List.length_map] at this

/-! ## Searching outwards -/

/-- What a search outwards comes to: the frames that it passes, and the one where it stops. -/
structure Search where
  passed : List (Handle × Frame)
  found : Option (Handle × Frame)

/-- The frames that a search has looked at. -/
def Search.frames (r : Search) : List (Handle × Frame) := r.passed ++ r.found.toList

/-- Goes outwards to the first frame that `stop` holds of. There is no result if looking at `steps`
frames is not enough. -/
def search (a : Arena) (stop : Frame → Bool) : Nat → Option Handle → Option Search
  | _, none => some ⟨[], none⟩
  | steps, some h =>
    match a.frame? h with
    | none => some ⟨[], none⟩
    | some f =>
      match steps with
      | 0 => none
      | steps + 1 =>
        if stop f then some ⟨[], some (h, f)⟩
        else (a.search stop steps f.parent).map fun r => ⟨(h, f) :: r.passed, r.found⟩

/-- A search that may look at all frames of a walk comes to an end. -/
theorem Walk.search_eq (h : a.Walk o l) (stop : Frame → Bool) {steps : Nat}
    (hsteps : l.length ≤ steps) :
    a.search stop steps o =
      some ⟨l.takeWhile fun link => !stop link.2, l.find? fun link => stop link.2⟩ := by
  induction h generalizing steps with
  | outermost => simp [search]
  | lost hx => simp [search, hx]
  | @inside x f l hx _ ih =>
    cases steps with
    | zero => exact absurd hsteps (Nat.not_succ_le_zero _)
    | succ steps =>
      have hrest := ih (Nat.le_of_succ_le_succ hsteps)
      rw [search]
      simp only [hx, hrest, Option.map_some]
      cases hstop : stop f <;> simp [hstop]

/-- A search looks at the frames of a walk, one after the other. -/
theorem search_frames_prefix (l : List (Handle × Frame)) (stop : Frame → Bool) :
    (Search.frames ⟨l.takeWhile fun link => !stop link.2, l.find? fun link => stop link.2⟩) <+:
      l := by
  unfold Search.frames
  induction l with
  | nil => exact List.prefix_refl []
  | cons link l ih =>
    cases hstop : stop link.2 with
    | true => simp [hstop]
    | false =>
      simp only [List.takeWhile_cons, List.find?_cons, hstop, Bool.not_false, if_true,
        List.cons_append]
      exact List.cons_prefix_cons.2 ⟨rfl, ih⟩

/-- A search ends after it has looked at no more frames than are live, and at none twice. -/
theorem Grounded.exists_search (h : a.Grounded) (ha : a.Tidy) (stop : Frame → Bool) (x : Handle) :
    ∃ r, a.search stop a.live (some x) = some r ∧ r.frames.length ≤ a.live ∧
      (r.frames.map (·.1)).Nodup ∧ r.passed = ((a.chain x).takeWhile fun link => !stop link.2) ∧
      r.found = (a.chain x).find? fun link => stop link.2 := by
  obtain ⟨l, hl⟩ := h x
  have hlength := hl.length_le_live ha
  have hstart := search_frames_prefix l stop
  refine ⟨_, hl.search_eq stop hlength, Nat.le_trans hstart.length_le hlength, ?_, ?_, ?_⟩
  · exact hl.nodup_handles.sublist (hstart.sublist.map _)
  · rw [chain_eq_of_walk hl]
  · rw [chain_eq_of_walk hl]

/-! ## Marking, turn by turn -/

/-- The state of the loop that marks: the marks, and the handles to look at. -/
structure Marker where
  marked : Array Bool
  work : List Handle

/-- One turn of the loop. A handle is taken off the worklist, wherever it stands. If it names a
frame that is not marked yet, the frame is marked and expanded: its links are put on the
worklist. -/
inductive Turn (a : Arena) : Marker → Option Handle → Marker → Prop
  | skip {marked : Array Bool} {work rest : List Handle} {x : Handle} :
    work.Perm (x :: rest) → (a.Live x → marked[x.index]? ≠ some false) →
      Turn a ⟨marked, work⟩ none ⟨marked, rest⟩
  | expand {marked : Array Bool} {work rest next : List Handle} {x : Handle} {f : Frame}
    (inside : x.index < marked.size) :
    work.Perm (x :: rest) → a.frame? x = some f → marked[x.index] = false →
      next.Perm (f.links ++ rest) →
        Turn a ⟨marked, work⟩ (some x) ⟨marked.set x.index true, next⟩

/-- A number of turns, with the handles whose frames were expanded. -/
inductive Turns (a : Arena) : Nat → Marker → List Handle → Marker → Prop
  | refl (s : Marker) : Turns a 0 s [] s
  | step {n : Nat} {s t u : Marker} {o : Option Handle} {xs : List Handle} :
    Turn a s o t → Turns a n t xs u → Turns a (n + 1) s (o.toList ++ xs) u

variable {s t u : Marker} {xs ys work : List Handle} {marked : Array Bool} {fresh : List Frame}

theorem Turns.trans (h : a.Turns n s xs t) (h' : a.Turns m t ys u) :
    a.Turns (n + m) s (xs ++ ys) u := by
  induction h with
  | refl => rwa [Nat.zero_add, List.nil_append]
  | step hturn _ ih =>
    rw [List.append_assoc, Nat.add_right_comm]
    exact .step hturn (ih h')

/-- A round of marking takes the handles one by one, and leaves the links of fresh frames to be
looked at. -/
theorem turns_visit (a : Arena) (work : List Handle) (marked : Array Bool) (fresh : List Frame) :
    ∃ n xs, a.Turns n ⟨marked, work ++ fresh.flatMap Frame.links⟩ xs
      ⟨(a.visit work marked fresh).1, (a.visit work marked fresh).2.flatMap Frame.links⟩ := by
  fun_induction visit a work marked fresh with
  | case1 marked fresh => exact ⟨0, [], .refl _⟩
  | case2 x rest marked fresh hx ih =>
    obtain ⟨n, xs, hturns⟩ := ih
    exact ⟨_, _, .step (.skip (.refl _) fun hlive => absurd hlive (not_live_iff.2 hx)) hturns⟩
  | case3 x rest marked fresh f hx inside seen ih =>
    obtain ⟨n, xs, hturns⟩ := ih
    refine ⟨_, _, .step (.skip (.refl _) fun _ => ?_) hturns⟩
    simp [inside, seen]
  | case4 x rest marked fresh f hx inside unseen ih =>
    obtain ⟨n, xs, hturns⟩ := ih
    refine ⟨_, _, .step (.expand inside (.refl _) hx (Bool.eq_false_iff.2 unseen) ?_) hturns⟩
    show (rest ++ (f.links ++ fresh.flatMap Frame.links)).Perm
      (f.links ++ (rest ++ fresh.flatMap Frame.links))
    rw [← List.append_assoc, ← List.append_assoc]
    exact List.perm_append_comm.append_right _
  | case5 x rest marked fresh f hx outside ih =>
    obtain ⟨n, xs, hturns⟩ := ih
    refine ⟨_, _, .step (.skip (.refl _) fun _ => ?_) hturns⟩
    simp [Array.getElem?_eq_none (Nat.le_of_not_lt outside)]

/-- **Marking is the loop run to its end.** -/
theorem turns_mark (a : Arena) (marked : Array Bool) (work : List Handle) :
    ∃ n xs, a.Turns n ⟨marked, work⟩ xs ⟨a.mark marked work, []⟩ := by
  fun_induction a.mark marked work with
  | case1 marked work next hvisit =>
    obtain ⟨n, xs, hturns⟩ := turns_visit a work marked []
    rw [hvisit, List.flatMap_nil, List.append_nil] at hturns
    exact ⟨n, xs, hturns⟩
  | case2 marked work next f fresh hvisit ih =>
    obtain ⟨n, xs, hturns⟩ := turns_visit a work marked []
    rw [hvisit, List.flatMap_nil, List.append_nil] at hturns
    obtain ⟨m, ys, hrest⟩ := ih
    exact ⟨_, _, hturns.trans hrest⟩

/-! ## Each frame once -/

/-- What a turn expands was not marked before, and is marked afterwards. No mark is taken away. -/
theorem Turn.marks (h : a.Turn s o t) :
    (∀ x ∈ o, a.Live x ∧ ¬ Marked s.marked x.index ∧ Marked t.marked x.index) ∧
      ∀ i, Marked s.marked i → Marked t.marked i := by
  cases h with
  | skip => exact ⟨fun x hx => (nomatch hx), fun i hi => hi⟩
  | @expand marked work rest next x f inside _ hf hunmarked _ =>
    refine ⟨fun y hy => ?_, fun i hi => (marked_set_iff inside).2 (.inr hi)⟩
    obtain rfl := Option.some.inj hy
    exact ⟨⟨f, hf⟩, by simp [Marked, inside, hunmarked], (marked_set_iff inside).2 (.inl rfl)⟩

/-- **No frame is expanded twice**: what is expanded was not marked before. -/
theorem Turns.nodup (h : a.Turns n s xs t) :
    xs.Nodup ∧ ∀ x ∈ xs, a.Live x ∧ ¬ Marked s.marked x.index := by
  induction h with
  | refl => exact ⟨List.nodup_nil, List.forall_mem_nil _⟩
  | @step n s t u o xs hturn _ ih =>
    obtain ⟨hnodup, hrest⟩ := ih
    obtain ⟨hfirst, hkeeps⟩ := hturn.marks
    have hold : ∀ x ∈ xs, a.Live x ∧ ¬ Marked s.marked x.index := fun x hx =>
      (hrest x hx).imp id fun hunmarked hmarked => hunmarked (hkeeps _ hmarked)
    cases o with
    | none => exact ⟨hnodup, hold⟩
    | some x =>
      obtain ⟨hlive, hunmarked, hmarked⟩ := hfirst x rfl
      refine ⟨List.nodup_cons.2 ⟨fun hx => (hrest x hx).2 hmarked, hnodup⟩, ?_⟩
      exact List.forall_mem_cons.2 ⟨⟨hlive, hunmarked⟩, hold⟩

/-- The links of the frame in a slot. -/
def linksAt (a : Arena) (i : Nat) : List Handle :=
  match a.slots[i]? with
  | some ⟨_, some f⟩ => f.links
  | _ => []

theorem linksAt_of_frame? (h : a.frame? x = some f) : a.linksAt x.index = f.links := by
  rw [linksAt, frame?_eq_some_iff.1 h]

/-- The number of links of all frames. -/
def references (a : Arena) : Nat := ((List.range a.slots.size).flatMap a.linksAt).length

/-- Every turn takes one handle off the worklist, and the links of what it expands are put on. -/
theorem Turns.count (h : a.Turns n s xs t) :
    n + t.work.length = s.work.length + (xs.flatMap fun x => a.linksAt x.index).length := by
  induction h with
  | refl => simp
  | @step n s t u o xs hturn _ ih =>
    cases hturn with
    | skip hperm =>
      have hlength := hperm.length_eq
      simp only [List.length_cons, Option.toList_none, List.nil_append] at hlength ih ⊢
      omega
    | expand _ hperm hf _ hnext =>
      have hlength := hperm.length_eq
      have hmore := hnext.length_eq
      simp only [List.length_cons, List.length_append, Option.toList_some, List.cons_append,
        List.nil_append, List.flatMap_cons, linksAt_of_frame? hf] at hlength hmore ih ⊢
      omega

/-- The frames expanded have no more links than all frames together. -/
theorem length_links_le_references (hnodup : xs.Nodup) (hlive : ∀ x ∈ xs, a.Live x) :
    (xs.flatMap fun x => a.linksAt x.index).length ≤ a.references := by
  have hinjective : (xs.map Handle.index).Nodup := hnodup.map_on fun x hx y hy hindex =>
    Live.ext (hlive x hx) (hlive y hy) hindex
  have hsub : xs.map Handle.index ⊆ List.range a.slots.size := by
    intro i hi
    obtain ⟨x, hx, rfl⟩ := List.mem_map.1 hi
    exact List.mem_range.2 (hlive x hx).index_lt
  obtain ⟨is, hperm, hsublist⟩ := List.subperm_of_subset hinjective hsub
  have hlinks : (xs.flatMap fun x => a.linksAt x.index) =
      (xs.map Handle.index).flatMap a.linksAt := by rw [List.flatMap_map]
  rw [hlinks, ← (hperm.flatMap_right a.linksAt).length_eq]
  exact (hsublist.flatMap a.linksAt).length_le

/-- As long as there is a handle to look at, the loop takes another turn. -/
theorem exists_turn (hsize : s.marked.size = a.slots.size) (hwork : s.work ≠ []) :
    ∃ o t, a.Turn s o t ∧ t.marked.size = a.slots.size := by
  obtain ⟨marked, work⟩ := s
  cases work with
  | nil => exact absurd rfl hwork
  | cons x rest =>
    by_cases hexpands : a.Live x ∧ marked[x.index]? = some false
    · obtain ⟨⟨f, hf⟩, hunmarked⟩ := hexpands
      obtain ⟨inside, hunmarked⟩ := Array.getElem?_eq_some_iff.1 hunmarked
      refine ⟨_, _, .expand inside (.refl _) hf hunmarked (.refl _), ?_⟩
      exact (Array.size_set inside).trans hsize
    · refine ⟨_, _, .skip (.refl _) fun hlive hunmarked => hexpands ⟨hlive, hunmarked⟩, hsize⟩

/-- The marks are as many as before. -/
theorem Turns.size_marked (h : a.Turns n s xs t) : t.marked.size = s.marked.size := by
  induction h with
  | refl => rfl
  | step hturn _ ih =>
    rw [ih]
    cases hturn with
    | skip => rfl
    | expand inside => exact Array.size_set inside

/-- Only the frames matter to the loop. -/
theorem Turns.congr {b : Arena} (h : a.Turns n s xs t)
    (hframe : ∀ x, b.frame? x = a.frame? x) : b.Turns n s xs t := by
  induction h with
  | refl => exact .refl _
  | step hturn _ ih =>
    refine .step ?_ ih
    cases hturn with
    | skip hperm hseen =>
      exact .skip hperm fun ⟨f, hf⟩ => hseen ⟨f, (hframe _).symm.trans hf⟩
    | expand inside hperm hf hunmarked hnext =>
      exact .expand inside hperm ((hframe _).trans hf) hunmarked hnext

/-! ## After every history -/

/-- The marking loop before its first turn: no marks, and the handles to look at. -/
def unmarkedFrom (a : Arena) (work : List Handle) : Marker :=
  ⟨Array.replicate a.slots.size false, work⟩

/-- The loops of an arena come to their ends. -/
structure WalksEnd (a : Arena) : Prop where
  /-- No frame stands around itself. -/
  acyclic : a.Acyclic
  /-- Going outwards from a handle, whatever is looked for, ends after no more frames than are live
  and meets none twice. -/
  outwards : ∀ (stop : Frame → Bool) (x : Handle), ∃ r, a.search stop a.live (some x) = some r ∧
    r.frames.length ≤ a.live ∧ (r.frames.map (·.1)).Nodup
  /-- Reading and assigning look for the first frame that binds the name. -/
  lookup : ∀ name, ∃ r, a.search (·.binds name) a.live (some a.current) = some r ∧
    a.get? name = r.found.bind (·.2.get? name) ∧ a.owner? name = r.found.map (·.1)
  /-- Making a function looks for the first frame that is pinned, and pins those that it passes. -/
  pinning : ∃ r, a.search (·.pinned) a.live (some a.current) = some r ∧
    a.unpinnedScopes = r.passed.map (·.1)
  /-- However far marking has come, it has expanded only live frames and none twice, and there is a
  bound on how far it can come. -/
  marking : ∀ work k xs t, a.Turns k (a.unmarkedFrom work) xs t →
    xs.Nodup ∧ (∀ x ∈ xs, a.Live x) ∧ xs.length ≤ a.live ∧ k ≤ work.length + a.references
  /-- Marking goes on as long as there is a handle to look at. -/
  going_on : ∀ work k xs t, a.Turns k (a.unmarkedFrom work) xs t → t.work ≠ [] →
    ∃ o u, a.Turn t o u
  /-- A collection goes by the marks that are there in the end. -/
  marked : ∀ outside, let roots := (a.forget outside).roots outside
    ∃ k xs, a.Turns k (a.unmarkedFrom roots) xs
      ⟨(a.forget outside).mark (Array.replicate a.slots.size false) roots, []⟩

theorem Grounded.walksEnd (h : a.Grounded) (ha : a.Tidy) : a.WalksEnd where
  acyclic := acyclic_iff_grounded.2 h
  outwards stop x := by
    obtain ⟨r, hr, hlength, hnodup, -⟩ := h.exists_search ha stop x
    exact ⟨r, hr, hlength, hnodup⟩
  lookup name := by
    obtain ⟨r, hr, -, -, -, hfound⟩ := h.exists_search ha (·.binds name) a.current
    exact ⟨r, hr, hfound ▸ findSome?_get? _ name, hfound ▸ rfl⟩
  pinning := by
    obtain ⟨r, hr, -, -, hpassed, -⟩ := h.exists_search ha (·.pinned) a.current
    exact ⟨r, hr, hpassed ▸ rfl⟩
  marking work k xs t hturns := by
    obtain ⟨hnodup, hfresh⟩ := hturns.nodup
    have hlive : ∀ x ∈ xs, a.Live x := fun x hx => (hfresh x hx).1
    have hcount : k + t.work.length = work.length + _ := hturns.count
    have hlinks := length_links_le_references hnodup hlive
    exact ⟨hnodup, hlive, length_le_live ha hnodup hlive, by omega⟩
  going_on work k xs t hturns hwork := by
    have hsize : t.marked.size = a.slots.size := hturns.size_marked.trans Array.size_replicate
    obtain ⟨o, u, hturn, -⟩ := exists_turn hsize hwork
    exact ⟨o, u, hturn⟩
  marked outside := by
    obtain ⟨k, xs, hturns⟩ := turns_mark (a.forget outside)
      (Array.replicate a.slots.size false) ((a.forget outside).roots outside)
    exact ⟨k, xs, hturns.congr fun _ => rfl⟩

end Arena

namespace Client

/-- **Every walk ends.** Whatever a client has done, in whatever order and through whatever handles
it was issued, also those of frames that were freed, and whatever functions from elsewhere it has
passed on: as long as no slot was given back so often that its generation begins anew, the frames
form a tree, and the loops that read, assign, make functions and mark come to their ends. -/
theorem every_walk_ends (policy : Policy) (n : Nat) (events : List Event)
    (hforeign : ∀ fn, .receive fn ∈ events → fn.identity < n)
    (hfrees : ∀ i, (new policy n).frees i events < UInt32.size) :
    (history policy n events).arena.WalksEnd :=
  have h := (inOrder_history policy hforeign (counts_new hfrees)).arena
  h.grounded.walksEnd h.tidy

/-- A frame is released while another is inside it, and its slot is used by a frame that is pushed
inside the inner one. There a function is made and bound, and one from elsewhere is bound that
captured the frame that is gone. -/
def crossedScopes : List Event :=
  [.operation (.push 0), .operation (.push 1), .operation (.release 1), .operation (.push 2),
    .operation (.push 1), .operation (.enter 3), .operation (.closure default),
    .receive ⟨0, default, ⟨1, 0⟩⟩, .operation (.define "f" (.function 0)),
    .operation (.define "g" (.function 1)), .operation .collect]

theorem every_walk_ends_crossedScopes :
    (∀ fn, .receive fn ∈ crossedScopes → fn.identity < 1) ∧
      (∀ i, (new .permissive 1).frees i crossedScopes < UInt32.size) ∧
      (history .permissive 1 crossedScopes).arena.WalksEnd := by
  have hforeign : ∀ fn, .receive fn ∈ crossedScopes → fn.identity < 1 := by
    intro fn hfn
    simp only [crossedScopes, List.mem_cons, reduceCtorEq, Event.receive.injEq, List.not_mem_nil,
      false_or, or_false] at hfn
    exact hfn ▸ Nat.zero_lt_one
  have hfrees : ∀ i, (new .permissive 1).frees i crossedScopes < UInt32.size := fun i =>
    Nat.lt_of_le_of_lt (frees_le_length ..) (by decide)
  exact ⟨hforeign, hfrees, every_walk_ends .permissive 1 crossedScopes hforeign hfrees⟩

end Client

end Script
