import Script.Proofs.Arena.Resolution

/-!
# Handles of frames that were freed

A handle outlives its frame: it stays with the client, as the parent of other frames, and captured
in functions. Its slot may hold another frame by then, and no operation takes the one for the other.

- `Client.Apart`: no handle is issued twice, and functions made in the arena have numbers of their
  own. `apart_history` holds of every history.
- `Arena.without`: the arena if some functions were bound nowhere. `collect_without`: a collection
  leaves the same frames, if what they captured is gone.
- `Arena.Disregards`: what it means that a handle is not honoured.
- `Client.stale_handle_never_honoured`: the handle of a frame that was freed never is.
-/

namespace Script

/-! ## No handle is issued twice -/

namespace Arena

/-- A collection makes no function known. -/
theorem known_collect_subset (a : Arena) (outside : List Closure) :
    (a.collect outside).known ⊆ a.known := by
  intro f hf
  rw [known_collect, mem_known_forget_iff] at hf
  exact hf.1

theorem known_release_subset (a : Arena) (x : Handle) (outside : List Closure) :
    (a.release x outside).known ⊆ a.known := by
  rcases release_cases a x outside with h | h
  · rw [h, known_retire]
    exact List.Subset.refl _
  · rw [h]
    exact List.Subset.trans (known_collect_subset _ outside)
      (known_retire a x ▸ List.Subset.refl _)

end Arena

namespace Client

variable {c d : Client} {e : Event} {n i : Nat} {x : Handle} {before after : List Event}

/-- The arena of a client is in order, no handle was issued twice, and no two functions made in the
arena have the same number, nor one from before `n`. -/
structure Apart (n : Nat) (c : Client) : Prop extends c.InOrder n where
  once : c.issued.Nodup
  bounds : ∀ f ∈ c.arena.known, n ≤ f.identity ∧ f.identity < c.arena.nextFunction
  distinct : ∀ f ∈ c.arena.known, ∀ g ∈ c.arena.known, f.identity = g.identity → f = g

theorem apart_new (policy : Policy) (n : Nat) : (new policy n).Apart n where
  toInOrder := inOrder_new policy n
  once := List.nodup_singleton _
  bounds := List.forall_mem_nil _
  distinct := List.forall_mem_nil _

/-- Functions stay apart while no other becomes known. -/
theorem Apart.of_known_subset (h : c.Apart n) (hd : d.InOrder n) (hissued : d.issued = c.issued)
    (hknown : d.arena.known ⊆ c.arena.known)
    (hnext : d.arena.nextFunction = c.arena.nextFunction) : d.Apart n where
  toInOrder := hd
  once := hissued ▸ h.once
  bounds f hf := hnext ▸ h.bounds f (hknown hf)
  distinct f hf g hg := h.distinct f (hknown hf) g (hknown hg)

/-- **One event keeps handles and functions apart.** -/
theorem Apart.change (h : c.Apart n) (hchange : c.Change e d) (hcounts : c.arena.Counts d.arena)
    (hforeign : ∀ fn, e = .receive fn → fn.identity < n) : d.Apart n := by
  have hd := h.toInOrder.change hchange hcounts hforeign
  cases hchange with
  | hands held origin => exact h.of_known_subset hd rfl (List.Subset.refl _) rfl
  | push p issued =>
    have hnew : (c.arena.push p).2 ∉ c.issued := fun hmem =>
      h.arena.tidy.not_issued_pushed p (h.issued _ hmem)
    exact {
      toInOrder := hd
      once := h.once.append (List.nodup_singleton _)
        (List.disjoint_singleton.2 hnew)
      bounds := by
        rw [Arena.known_push, Arena.nextFunction_push]
        exact h.bounds
      distinct := by
        rw [Arena.known_push]
        exact h.distinct }
  | enter x issued => exact h.of_known_subset hd rfl (List.Subset.refl _) rfl
  | release x issued =>
    exact h.of_known_subset hd rfl (Arena.known_release_subset ..) (Arena.nextFunction_release ..)
  | make decl =>
    -- the number of the new function is larger than those of the others
    have hlast : ∀ f ∈ c.arena.known, f.identity ≠ c.arena.nextFunction := fun f hf =>
      Nat.ne_of_lt (h.bounds f hf).2
    refine { toInOrder := hd, once := h.once, bounds := ?_, distinct := ?_ }
    · rw [Arena.known_closure, Arena.nextFunction_closure, List.forall_mem_cons]
      refine ⟨⟨h.numbered, Nat.lt_succ_self _⟩, fun f hf => ?_⟩
      exact (h.bounds f hf).imp id Nat.lt_succ_of_lt
    · rw [Arena.known_closure]
      intro f hf g hg hid
      rcases List.mem_cons.1 hf with rfl | hf <;> rcases List.mem_cons.1 hg with rfl | hg
      · rfl
      · exact absurd hid.symm (hlast g hg)
      · exact absurd hid (hlast f hf)
      · exact h.distinct f hf g hg hid
  | put x name v held => exact h.of_known_subset hd rfl (List.Subset.refl _) rfl
  | collect =>
    exact h.of_known_subset hd rfl (Arena.known_collect_subset ..) (Arena.nextFunction_collect ..)

/-- Every history keeps handles and functions apart. -/
theorem apart_history {events : List Event} (policy : Policy)
    (hforeign : ∀ fn, .receive fn ∈ events → fn.identity < n)
    (hcounts : (new policy n).Counts events) : (history policy n events).Apart n :=
  history_induction (apart_new policy n) hcounts fun _ _ _ he hcounts hchange h =>
    h.change hchange hcounts fun fn hfn => hforeign fn (hfn ▸ he)

/-- A function in use that has the number of a known one is that one. -/
theorem Apart.eq_of_identity (h : c.Apart n) {f g : Closure} (hf : f ∈ c.arena.known)
    (hg : c.arena.Binds g ∨ g ∈ c.held) (hid : g.identity = f.identity) : g = f :=
  h.distinct g (h.known g (hid ▸ (h.bounds f hf).1) hg) f hf hid

/-! ## What is gone stays gone -/

/-- Slots are given back before some moment and after it. -/
theorem frees_append (c : Client) (i : Nat) (before after : List Event) :
    c.frees i (before ++ after) = c.frees i before + (before.foldl meet c).frees i after := by
  induction before generalizing c with
  | nil => rw [List.nil_append, frees, Nat.zero_add, List.foldl_nil]
  | cons e before ih =>
    rw [List.cons_append, frees, frees, ih, List.foldl_cons, Nat.add_assoc]

theorem Counts.split (h : c.Counts (before ++ after)) :
    c.Counts before ∧ (before.foldl meet c).Counts after := by
  have hbefore : c.Counts before := by
    intro i
    have hroom := h i
    rw [frees_append] at hroom
    omega
  refine ⟨hbefore, fun i => ?_⟩
  have hroom := h i
  rw [frees_append] at hroom
  rw [age_history hbefore i]
  omega

/-- Once its frame was freed, a handle names none after whatever events. -/
theorem stale_foldl {events : List Event} (hcounts : c.Counts events) (hx : c.arena.Stale x) :
    (events.foldl meet c).arena.Stale x :=
  history_induction (P := fun c => c.arena.Stale x) hx hcounts
    fun _ _ _ _ hcounts hchange h => hchange.ages.stale hcounts h

end Client

/-! ## Handles that name no frame -/

namespace Arena

variable {a : Arena} {x y : Handle} {f : Frame} {fn : Closure} {outside : List Closure}

/-- Releasing such a handle does nothing at all. -/
theorem Orderly.release_of_not_live (h : a.Orderly) (hx : ¬ a.Live x) (outside : List Closure) :
    a.release x outside = a := by
  have hnone := not_live_iff.1 hx
  have hretire : a.retire x = a := by
    rcases retire_cases a x with ⟨-, heq⟩ | ⟨f, hf, -⟩ | ⟨f, hf, -⟩
    · rw [heq, List.erase_of_not_mem fun hmem => hx (h.active x hmem)]
    · exact absurd ⟨f, hf⟩ hx
    · exact absurd ⟨f, hf⟩ hx
  rw [Arena.release, if_neg (by simp [isPinned, hnone]), hretire]

/-- Nothing is defined in a frame that is not there. -/
theorem define_of_not_live (hx : ¬ a.Live x) (name : String) (v : Value) :
    (a.enter x).define name v = (a.enter x, some (.undefined name)) := by
  have hnone : (a.enter x).frame? (a.enter x).current = none := not_live_iff.1 hx
  simp only [define, hnone]

/-- A function made there captures the handle, and pins no frame. -/
theorem closure_of_not_live (hx : ¬ a.Live x) (decl : FunDecl) :
    (a.enter x).closure decl =
      ({ a.enter x with
          known := ⟨a.nextFunction, decl, x⟩ :: a.known, nextFunction := a.nextFunction + 1 },
        ⟨a.nextFunction, decl, x⟩) := by
  have hwalk : (a.enter x).Walk (some x) [] := .lost (not_live_iff.1 hx)
  have hscopes : (a.enter x).unpinnedScopes = [] := by
    rw [unpinnedScopes, show (a.enter x).current = x from rfl, chain_eq_of_walk hwalk]
    rfl
  simp only [closure, hscopes]
  rfl

/-- The walk from a frame inside one that is not there ends at once. -/
theorem chain_of_parent_not_live (hx : ¬ a.Live x) (hf : a.frame? y = some f)
    (hparent : f.parent = some x) : a.chain y = [(y, f)] := by
  refine chain_eq_of_walk (.inside hf ?_)
  rw [hparent]
  exact .lost (not_live_iff.1 hx)

/-- In such a frame, a name means a variable of the frame or nothing. -/
theorem look_of_parent_not_live (hx : ¬ a.Live x) (hf : a.frame? y = some f)
    (hparent : f.parent = some x) (name : String) : a.look y name = f.get? name := by
  rw [look_eq, chain_of_parent_not_live hx hf hparent]
  cases hv : f.get? name <;> simp [hv]

/-- So is assigned to a variable of the frame or to none. -/
theorem assign_of_parent_not_live (hx : ¬ a.Live x) (hf : a.frame? y = some f)
    (hparent : f.parent = some x) (name : String) (v : Value) :
    (a.enter y).assign name v =
      if f.binds name then ((a.enter y).put y name v, none)
      else (a.enter y, some (.undefined name)) := by
  have hchain : (a.enter y).chain (a.enter y).current = [(y, f)] :=
    chain_of_parent_not_live (a := a.enter y) hx hf hparent
  rw [assign, owner?, hchain]
  cases hb : f.binds name <;> simp [hb]

end Arena

/-! ## Functions that captured such a handle -/

/-- The frame without the variables bound to some functions. -/
def Frame.without (drop : Closure → Bool) (f : Frame) : Frame :=
  { f with bindings := f.bindings.filter fun b => !b.2.functions.any drop }

/-- The arena in which some functions are bound nowhere. -/
def Arena.without (drop : Closure → Bool) (a : Arena) : Arena :=
  { a with slots := a.slots.map fun s => { s with frame := s.frame.map (Frame.without drop) } }

theorem Frame.mem_functions_without_iff {drop : Closure → Bool} {f : Frame} {fn : Closure} :
    fn ∈ (f.without drop).functions ↔ fn ∈ f.functions ∧ drop fn = false := by
  unfold without functions
  simp only [List.mem_flatMap, List.mem_filter, Bool.not_eq_true', List.any_eq_false]
  constructor
  · rintro ⟨b, ⟨hb, hdrop⟩, hfn⟩
    exact ⟨⟨b, hb, hfn⟩, Bool.eq_false_iff.2 (hdrop fn hfn)⟩
  · rintro ⟨⟨b, hb, hfn⟩, hdrop⟩
    refine ⟨b, ⟨hb, fun g hg => ?_⟩, hfn⟩
    -- a value is one function at most
    obtain rfl : g = fn := by
      cases hv : b.2 with
      | function w =>
        rw [hv] at hfn hg
        exact (List.mem_singleton.1 hg).trans (List.mem_singleton.1 hfn).symm
      | _ =>
        rw [hv] at hg
        cases hg
    exact Bool.eq_false_iff.1 hdrop

namespace Arena

variable {a : Arena} {x y : Handle} {f : Frame} {outside : List Closure} {drop : Closure → Bool}

theorem frame?_without (a : Arena) (drop : Closure → Bool) (x : Handle) :
    (a.without drop).frame? x = (a.frame? x).map (Frame.without drop) := by
  unfold frame? without
  simp only [Array.getElem?_map]
  cases a.slots[x.index]? with
  | none => rfl
  | some s => by_cases h : s.generation = x.generation <;> simp [h]

theorem live_without_iff : (a.without drop).Live x ↔ a.Live x := by
  unfold Live
  rw [frame?_without]
  simp [Option.map_eq_some_iff]

/-- What can be reached without some functions can be reached with them. -/
theorem reaches_of_without {start start' : List Handle} (hstart : ∀ y ∈ start, y ∈ start')
    (h : (a.without drop).Reaches start y) : a.Reaches start' y := by
  induction h with
  | start hmem => exact .start (hstart _ hmem)
  | @link z y g _ hg hy ih =>
    rw [frame?_without] at hg
    obtain ⟨f, hf, rfl⟩ := Option.map_eq_some_iff.1 hg
    refine .link ih hf ?_
    rcases List.mem_append.1 hy with hy | hy
    · exact List.mem_append_left _ hy
    · obtain ⟨fn, hfn, rfl⟩ := List.mem_map.1 hy
      exact Frame.captured_mem_links (Frame.mem_functions_without_iff.1 hfn).1

/-- A frame that can be reached can be reached without functions that captured no frame. -/
theorem reaches_without {start start' : List Handle}
    (hdrop : ∀ fn, drop fn = true → ¬ a.Live fn.captured)
    (hstart : ∀ y ∈ start, a.Live y → y ∈ start') (h : a.Reaches start y) (hy : a.Live y) :
    (a.without drop).Reaches start' y := by
  induction h with
  | start hmem => exact .start (hstart _ hmem hy)
  | @link z y f _ hf hlink ih =>
    refine .link (ih ⟨f, hf⟩) (by rw [frame?_without, hf]; rfl) ?_
    rcases List.mem_append.1 hlink with hlink | hlink
    · exact List.mem_append_left _ hlink
    · obtain ⟨fn, hfn, rfl⟩ := List.mem_map.1 hlink
      refine Frame.captured_mem_links (Frame.mem_functions_without_iff.2 ⟨hfn, ?_⟩)
      exact Bool.eq_false_iff.2 fun hd => hdrop fn hd hy

/-- **Functions that captured no frame keep none alive.** If functions known to the arena and those
held outside are told apart by their numbers, a collection leaves the frames it would leave if
nobody held or bound the functions. -/
theorem live_collect_without_iff (hreclaims : a.reclaims = true)
    (hsame : ∀ f ∈ a.known, ∀ g ∈ outside, g.identity = f.identity → g = f)
    (hdrop : ∀ fn, drop fn = true → ¬ a.Live fn.captured) :
    ((a.without drop).collect (outside.filter fun fn => !drop fn)).Live y ↔
      (a.collect outside).Live y := by
  have hlive : ∀ {b : Arena} {held : List Closure}, b.reclaims = true →
      ((b.collect held).Live y ↔ b.Live y ∧ b.Reaches (b.roots held) y) := by
    intro b held hb
    unfold Live
    simp only [frame?_collect_iff hb, exists_and_right]
  rw [hlive (b := a.without drop) hreclaims, hlive hreclaims, live_without_iff]
  refine and_congr_right fun hy => ⟨fun h => reaches_of_without ?_ h, fun h =>
    reaches_without hdrop ?_ h hy⟩
  · intro z hz
    rw [mem_roots_iff] at hz ⊢
    refine hz.imp id (Or.imp id (Or.imp id ?_))
    rintro ⟨f, hf, ⟨g, hg, hid⟩, hcaptured⟩
    exact ⟨f, hf, ⟨g, (List.mem_filter.1 hg).1, hid⟩, hcaptured⟩
  · intro z hz hzlive
    rw [mem_roots_iff] at hz ⊢
    refine hz.imp id (Or.imp id (Or.imp id ?_))
    rintro ⟨f, hf, ⟨g, hg, hid⟩, rfl⟩
    refine ⟨f, hf, ⟨g, List.mem_filter.2 ⟨hg, ?_⟩, hid⟩, rfl⟩
    -- a function left out captured no frame, and so is no root that leads anywhere
    obtain rfl := hsame f hf g hg hid
    rw [Bool.not_eq_true']
    exact Bool.eq_false_iff.2 fun hd => hdrop g hd hzlive

/-! ## Nothing is done through such a handle -/

/-- The handle `x` is not honoured by an arena some of whose functions are held outside. -/
structure Disregards (a : Arena) (held : List Closure) (x : Handle) : Prop where
  /-- It names no frame. -/
  not_live : ¬ a.Live x
  /-- Releasing it changes nothing. -/
  release : ∀ outside, a.release x outside = a
  /-- While it is entered, no name has a value. -/
  get : ∀ name, (a.enter x).get? name = none
  /-- Assignments are refused there. -/
  assign : ∀ name v, (a.enter x).assign name v = (a.enter x, some (.undefined name))
  /-- Definitions are refused there. -/
  define : ∀ name v, (a.enter x).define name v = (a.enter x, some (.undefined name))
  /-- A function made there captures it and pins no frame. -/
  closure : ∀ decl, ((a.enter x).closure decl).2.captured = x ∧
    ∀ y, ((a.enter x).closure decl).1.frame? y = a.frame? y
  /-- A new frame can be put inside it. -/
  push : (a.push x).1.frame? (a.push x).2 = some (.empty x)
  /-- In the frames inside it, a name means a variable of the frame or nothing. -/
  inside_get : ∀ y f, a.frame? y = some f → f.parent = some x →
    ∀ name, (a.enter y).get? name = f.get? name
  /-- Nor is assigned to any other variable there. -/
  inside_assign : ∀ y f, a.frame? y = some f → f.parent = some x → ∀ name v,
    (a.enter y).assign name v =
      if f.binds name then ((a.enter y).put y name v, none)
      else (a.enter y, some (.undefined name))
  /-- A collection leaves the frames it would leave if functions that captured it were held and
  bound by nobody. -/
  captured : ∀ drop : Closure → Bool, (∀ fn, drop fn = true → fn.captured = x) → ∀ y,
    ((a.collect held).Live y ↔
      ((a.without drop).collect (held.filter fun fn => !drop fn)).Live y)

end Arena

namespace Client

variable {c : Client} {n : Nat} {x : Handle}

/-- A handle that names no frame is not honoured. -/
theorem Apart.disregards (h : c.Apart n) (hx : ¬ c.arena.Live x) :
    c.arena.Disregards c.held x where
  not_live := hx
  release := h.arena.release_of_not_live hx
  get name := (h.arena.grounded.broken (.start x) hx).1
  assign _ := (h.arena.grounded.broken (.start x) hx).2
  define := Arena.define_of_not_live hx
  closure decl := by
    rw [Arena.closure_of_not_live hx]
    exact ⟨rfl, fun y => rfl⟩
  push := by rw [h.arena.tidy.frame?_push, if_pos rfl]
  inside_get y f hf hparent := Arena.look_of_parent_not_live hx hf hparent
  inside_assign y f hf hparent := Arena.assign_of_parent_not_live hx hf hparent
  captured drop hdrop y := by
    refine (Arena.live_collect_without_iff h.arena.reclaims ?_ ?_).symm
    · exact fun f hf g hg hid => h.eq_of_identity hf (.inr hg) hid
    · exact fun fn hfn => hdrop fn hfn ▸ hx

/-- **A stale handle is never honoured.** Whatever a client does, in whatever order and through
whatever handles it was issued: as long as no slot was given back so often that its generation
begins anew, no handle is issued twice, and once the frame of a handle is gone, the handle is not
honoured after any further events. -/
theorem stale_handle_never_honoured (policy : Policy) (n : Nat) (before after : List Event)
    (hforeign : ∀ fn, .receive fn ∈ before ++ after → fn.identity < n)
    (hfrees : ∀ i, (new policy n).frees i (before ++ after) < UInt32.size) :
    let past := history policy n before
    let now := history policy n (before ++ after)
    now.issued.Nodup ∧
      ∀ x ∈ past.issued, ¬ past.arena.Live x → now.arena.Disregards now.held x := by
  intro past now
  have hcounts : (new policy n).Counts (before ++ after) := counts_new hfrees
  have hnow : now.Apart n := apart_history policy hforeign hcounts
  have hpast : past.InOrder n := inOrder_history policy
    (fun fn hfn => hforeign fn (List.mem_append_left _ hfn)) hcounts.split.1
  have hafter : now = after.foldl meet past := List.foldl_append
  refine ⟨hnow.once, fun x hissued hx => hnow.disregards ?_⟩
  have hstale : past.arena.Stale x := (hpast.issued x hissued).resolve_left hx
  rw [hafter]
  exact Arena.not_live_of_stale (stale_foldl hcounts.split.2 hstale)

/-- A frame is released, and a frame pushed inside it takes its slot. -/
def reusedScope : List Event :=
  [.operation (.push 0), .operation (.release 1), .operation (.push 1)]

/-- The first handle is entered and a function made there, which gets a name in the second frame.
Then the frames are collected and the first handle is released again. -/
def staleUses : List Event :=
  [.operation (.enter 1), .operation (.closure default), .operation (.enter 2),
    .operation (.define "f" (.function 0)), .operation .collect, .operation (.release 1)]

theorem stale_handle_never_honoured_reusedScope :
    let now := history .strict 0 (reusedScope ++ staleUses)
    now.issued.Nodup ∧ now.arena.Disregards now.held ⟨1, 0⟩ ∧ now.arena.Live ⟨1, 1⟩ := by
  have hforeign : ∀ fn, .receive fn ∈ reusedScope ++ staleUses → fn.identity < 0 := by
    intro fn hfn
    simp [reusedScope, staleUses] at hfn
  have hfrees : ∀ i, (new .strict 0).frees i (reusedScope ++ staleUses) < UInt32.size := fun i =>
    Nat.lt_of_le_of_lt (frees_le_length ..) (by decide)
  obtain ⟨honce, hdisregards⟩ :=
    stale_handle_never_honoured .strict 0 reusedScope staleUses hforeign hfrees
  refine ⟨honce, hdisregards ⟨1, 0⟩ ?_ ?_, by decide +kernel⟩
  · exact List.mem_of_getElem? (i := 1) rfl
  · exact Arena.not_live_iff.2 rfl

end Client

end Script
