import Script.Proofs.Arena.Clients

/-!
# Handles over time

A slot is used by one frame after the other. Its generation counts the frames that were freed from
it, and so tells the handles of earlier frames from that of the present one, as long as the count
does not run over.

- `Client.Event`, `Client.history`: whatever can happen to a client, functions made elsewhere
  included.
- `Client.frees`: how often a slot is given back in the course of events.
- `Arena.Ages`: what becomes of slots.
- `Arena.Stale`, `Arena.Issued`: a handle whose frame was freed, a handle that was issued at all.
- `Client.Change`, `change_meet`: what an event does, said once for all events.
- `Client.age_history`: the generation of a slot is the number of times it was given back.
-/

namespace Script

/-! ## Events -/

namespace Client

/-- What can happen to a client. -/
inductive Event
  /-- The client does something. -/
  | operation (op : Operation)
  /-- A function that was made elsewhere comes into the client's hands. -/
  | receive (fn : Closure)

/-- The client after an event. -/
def meet (c : Client) : Event → Client
  | .operation op => c.perform op
  | .receive fn => { c with held := c.held ++ [fn] }

/-- A client of a new arena after some events. Functions made in the arena are numbered from
`firstFunction` on. -/
def history (policy : Policy) (firstFunction : Nat) (events : List Event) : Client :=
  events.foldl meet (new policy firstFunction)

end Client

namespace Arena

/-- Whether the slot at `i` was given back on the way from one state of an arena to another. -/
def gaveBack (a b : Arena) (i : Nat) : Bool :=
  match a.slots[i]?, b.slots[i]? with
  | some s, some t => s.generation != t.generation
  | _, _ => false

/-- The generation of a slot as a number. A slot that does not exist yet begins at zero. -/
def age (a : Arena) (i : Nat) : Nat :=
  match a.slots[i]? with
  | some s => s.generation.toNat
  | none => 0

end Arena

/-- How often the slot at `i` is given back in the course of events. -/
def Client.frees (c : Client) (i : Nat) : List Event → Nat
  | [] => 0
  | e :: events =>
    (if c.arena.gaveBack (c.meet e).arena i then 1 else 0) + (c.meet e).frees i events

/-! ## What becomes of slots -/

/-- A slot keeps its generation, and a frame that is in it; or its frame is freed. -/
def Slot.Becomes (s t : Slot) : Prop :=
  (t.generation = s.generation ∧ (s.frame.isSome → t.frame.isSome)) ∨
    (s.frame.isSome ∧ t = ⟨s.generation + 1, none⟩)

theorem Slot.Becomes.refl (s : Slot) : s.Becomes s := .inl ⟨rfl, id⟩

namespace Arena

variable {a b : Arena} {x : Handle} {outside : List Closure}

/-- What becomes of the slots of `a` in `b`; slots that are new begin with the first generation. -/
structure Ages (a b : Arena) : Prop where
  slot : ∀ (i : Nat) (s : Slot), a.slots[i]? = some s → ∃ t, b.slots[i]? = some t ∧ s.Becomes t
  fresh : ∀ (i : Nat) (t : Slot), a.slots[i]? = none → b.slots[i]? = some t → t.generation = 0

theorem ages_of_slots_eq (h : b.slots = a.slots) : a.Ages b where
  slot i s hs := ⟨s, h ▸ hs, .refl s⟩
  fresh i t hnone ht := by
    rw [h, hnone] at ht
    cases ht

/-- Where slots are changed in their places, it is enough to look at those there were. -/
theorem ages_of_map (change : Nat → Slot → Slot)
    (h : ∀ i : Nat, b.slots[i]? = (a.slots[i]?).map (change i))
    (hchange : ∀ (i : Nat) (s : Slot), a.slots[i]? = some s → s.Becomes (change i s)) :
    a.Ages b where
  slot i s hs := ⟨change i s, by rw [h, hs]; rfl, hchange i s hs⟩
  fresh i t hnone ht := by
    rw [h, hnone] at ht
    cases ht

/-- Changing a frame is no event in the life of its slot. -/
theorem Ages.updateFrame (h : a.Ages b) (x : Handle) (change : Frame → Frame) :
    a.Ages (b.updateFrame x change) := by
  have hslot : ∀ i : Nat, (b.updateFrame x change).slots[i]? = (b.slots[i]?).map fun t =>
      if x.index = i ∧ t.generation = x.generation then { t with frame := t.frame.map change }
      else t := by
    intro i
    simp only [Arena.updateFrame, Array.getElem?_modify]
    by_cases hi : x.index = i <;> simp [hi]
  constructor
  · intro i s hs
    obtain ⟨t, ht, hst⟩ := h.slot i s hs
    refine ⟨_, by rw [hslot, ht]; rfl, ?_⟩
    dsimp only
    split_ifs
    · rcases hst with ⟨hgen, hsome⟩ | ⟨hsome, rfl⟩
      · exact .inl ⟨hgen, by simpa using hsome⟩
      · exact .inr ⟨hsome, rfl⟩
    · exact hst
  · intro i t hnone ht
    rw [hslot] at ht
    obtain ⟨t', ht', rfl⟩ := Option.map_eq_some_iff.1 ht
    have hgen := h.fresh i t' hnone ht'
    split_ifs
    · exact hgen
    · exact hgen

theorem Ages.pinAll (h : a.Ages b) (xs : List Handle) : a.Ages (b.pinAll xs) := by
  induction xs generalizing b with
  | nil => exact h
  | cons x xs ih => exact ih (h.updateFrame x Frame.pin)

theorem ages_put (a : Arena) (x : Handle) (name : String) (v : Value) :
    a.Ages (a.put x name v) :=
  (ages_of_slots_eq rfl).updateFrame x _

theorem ages_closure (a : Arena) (decl : FunDecl) : a.Ages (a.closure decl).1 where
  slot := ((ages_of_slots_eq rfl).pinAll a.unpinnedScopes : a.Ages _).slot
  fresh := ((ages_of_slots_eq rfl).pinAll a.unpinnedScopes : a.Ages _).fresh

theorem ages_push (a : Arena) (p : Handle) : a.Ages (a.push p).1 := by
  unfold push
  split
  · constructor
    · intro i s hs
      have hi : i < a.slots.size := (Array.getElem?_eq_some_iff.1 hs).1
      refine ⟨s, ?_, .refl s⟩
      simp only [Array.getElem?_push, Nat.ne_of_lt hi, if_false, hs]
    · intro i t hnone ht
      simp only [Array.getElem?_push] at ht
      split at ht
      · obtain rfl := Option.some.inj ht
        rfl
      · rw [hnone] at ht
        cases ht
  · rename_i index free hfree
    refine ages_of_map (fun i s => if index = i then { s with frame := some (.empty p) } else s)
      (fun i => ?_) fun i s _ => ?_
    · simp only [Array.getElem?_modify]
      split <;> simp
    · split_ifs
      · exact .inl ⟨rfl, by simp⟩
      · exact .refl s

theorem ages_freeSlot {i : Nat} (hi : ∃ n f, a.slots[i]? = some ⟨n, some f⟩) :
    a.Ages (a.freeSlot i) := by
  cases hr : a.reclaims with
  | false => exact ages_of_slots_eq (by rw [freeSlot_of_keeps hr])
  | true =>
    refine ages_of_map (fun j s => if i = j then ⟨s.generation + 1, none⟩ else s)
      (fun j => ?_) fun j s hs => ?_
    · rw [slots_freeSlot hr]
      split <;> simp
    · split_ifs with hj
      · obtain ⟨n, f, hslot⟩ := hi
        obtain rfl := Option.some.inj (hs.symm.trans (hj ▸ hslot))
        exact .inr ⟨rfl, rfl⟩
      · exact .refl s

/-- A collection gives every slot back at most once. -/
theorem ages_collect (a : Arena) (outside : List Closure) : a.Ages (a.collect outside) := by
  cases hr : a.reclaims with
  | false =>
    refine ages_of_slots_eq ?_
    show ((a.forget outside).sweep _).slots = _
    rw [sweep_of_keeps (a := a.forget outside) hr]
    rfl
  | true =>
    let marks := (a.forget outside).mark (Array.replicate (a.forget outside).slots.size false)
      ((a.forget outside).roots outside)
    refine ages_of_map (fun i s => if i ∈ (a.forget outside).unmarked marks then
      ⟨s.generation + 1, none⟩ else s) (fun i => ?_) fun i s hs => ?_
    · show ((a.forget outside).sweep marks).slots[i]? = _
      rw [getElem?_sweep (a := a.forget outside) hr]
      split <;> simp [forget]
    · split_ifs with hi
      · obtain ⟨⟨n, f, hslot⟩, -⟩ := mem_unmarked_iff.1 hi
        obtain rfl := Option.some.inj (hs.symm.trans hslot)
        exact .inr ⟨rfl, rfl⟩
      · exact .refl s

theorem ages_retire (a : Arena) (x : Handle) : a.Ages (a.retire x) := by
  rcases retire_cases a x with ⟨-, h⟩ | ⟨f, -, -, h⟩ | ⟨f, hf, -, h⟩
  · exact ages_of_slots_eq (by rw [h])
  · exact ages_of_slots_eq (by rw [h])
  · have hfreed := ages_freeSlot (a := { a with active := a.active.erase x })
      ⟨_, f, frame?_eq_some_iff.1 hf⟩
    rw [h]
    exact ⟨hfreed.slot, hfreed.fresh⟩

/-- A scope whose end starts a collection keeps its frame until then. -/
theorem release_cases_slots (a : Arena) (x : Handle) (outside : List Closure) :
    a.release x outside = a.retire x ∨
      (a.retire x).slots = a.slots ∧ a.release x outside = (a.retire x).collect outside := by
  unfold release
  split
  · rename_i hcollects
    refine .inr ⟨?_, rfl⟩
    have hpinned := (Bool.and_eq_true_iff.1 hcollects).1
    rcases retire_cases a x with ⟨-, h⟩ | ⟨f, -, -, h⟩ | ⟨f, hf, hpin, -⟩
    · rw [h]
    · rw [h]
    · simp [isPinned, hf, hpin] at hpinned
  · exact .inl rfl

theorem ages_release (a : Arena) (x : Handle) (outside : List Closure) :
    a.Ages (a.release x outside) := by
  rcases release_cases_slots a x outside with h | ⟨hslots, h⟩
  · rw [h]
    exact ages_retire a x
  · rw [h]
    have hcollected := ages_collect (a.retire x) outside
    exact ⟨hslots ▸ hcollected.slot, hslots ▸ hcollected.fresh⟩

/-! ## Counting -/

/-- No slot that is given back on the way from `a` to `b` begins again with the first generation. -/
def Counts (a b : Arena) : Prop := ∀ i, a.gaveBack b i = true → a.age i + 1 < UInt32.size

theorem toNat_generation_succ {n : UInt32} (h : n.toNat + 1 < UInt32.size) :
    (n + 1).toNat = n.toNat + 1 := by
  rw [UInt32.toNat_add]
  exact Nat.mod_eq_of_lt h

theorem generation_succ_ne (n : UInt32) : n ≠ n + 1 := by
  intro h
  have := congrArg UInt32.toNat h
  rw [UInt32.toNat_add] at this
  have := n.toNat_lt
  simp only [UInt32.reduceToNat] at *
  omega

/-- The generation of a slot advances each time it is given back. -/
theorem Ages.age_eq (h : a.Ages b) (hcounts : a.Counts b) (i : Nat) :
    b.age i = a.age i + if a.gaveBack b i then 1 else 0 := by
  have hroom := hcounts i
  unfold gaveBack age at *
  cases ha : a.slots[i]? with
  | none =>
    cases hb : b.slots[i]? with
    | none => simp
    | some t => simp [h.fresh i t ha hb]
  | some s =>
    obtain ⟨t, hb, hst⟩ := h.slot i s ha
    simp only [ha, hb, bne_iff_ne] at hroom ⊢
    rcases hst with ⟨hgen, -⟩ | ⟨-, rfl⟩
    · simp [hgen]
    · have hne := generation_succ_ne s.generation
      simp [toNat_generation_succ (hroom hne), hne]

/-! ## Handles that were issued -/

/-- The frame that a handle named was freed: its slot is in a later generation. -/
def Stale (a : Arena) (x : Handle) : Prop :=
  ∃ s, a.slots[x.index]? = some s ∧ x.generation < s.generation

/-- A handle was issued: it names a frame, or did so once. -/
def Issued (a : Arena) (x : Handle) : Prop := a.Live x ∨ a.Stale x

/-- A stale handle names no frame. -/
theorem not_live_of_stale (h : a.Stale x) : ¬ a.Live x := by
  rintro ⟨f, hf⟩
  obtain ⟨s, hs, hlt⟩ := h
  rw [frame?_eq_some_iff, hs] at hf
  obtain rfl := Option.some.inj hf
  exact absurd hlt (UInt32.lt_irrefl _)

/-- In a later state of an arena the generation of a slot is the same or larger. -/
theorem Ages.generation_le (h : a.Ages b) (hcounts : a.Counts b) {i : Nat} {s : Slot}
    (hs : a.slots[i]? = some s) :
    ∃ t, b.slots[i]? = some t ∧ (t.generation = s.generation ∧ (s.frame.isSome → t.frame.isSome) ∨
      s.generation < t.generation) := by
  obtain ⟨t, ht, hst⟩ := h.slot i s hs
  refine ⟨t, ht, hst.imp id ?_⟩
  rintro ⟨-, rfl⟩
  have hne := generation_succ_ne s.generation
  have hroom : s.generation.toNat + 1 < UInt32.size := by
    simpa [age, gaveBack, hs, ht, hne] using hcounts i
  rw [UInt32.lt_iff_toNat_lt, toNat_generation_succ hroom]
  exact Nat.lt_succ_self _

/-- Once its frame was freed, a handle never names one again. -/
theorem Ages.stale (h : a.Ages b) (hcounts : a.Counts b) (hx : a.Stale x) : b.Stale x := by
  obtain ⟨s, hs, hlt⟩ := hx
  obtain ⟨t, ht, ⟨hgen, -⟩ | hlater⟩ := h.generation_le hcounts hs
  · exact ⟨t, ht, hgen ▸ hlt⟩
  · exact ⟨t, ht, UInt32.lt_trans hlt hlater⟩

/-- What was issued stays issued. -/
theorem Ages.issued (h : a.Ages b) (hcounts : a.Counts b) (hx : a.Issued x) : b.Issued x := by
  rcases hx with ⟨f, hf⟩ | hx
  · have hs := frame?_eq_some_iff.1 hf
    obtain ⟨⟨n, frame⟩, ht, ⟨hgen, hsome⟩ | hlater⟩ := h.generation_le hcounts hs
    · obtain ⟨g, rfl⟩ := Option.isSome_iff_exists.1 (hsome rfl)
      obtain rfl : n = x.generation := hgen
      exact .inl ⟨g, frame?_eq_some_iff.2 ht⟩
    · exact .inr ⟨_, ht, hlater⟩
  · exact .inr (h.stale hcounts hx)

/-- The handle of a new frame was not issued before. -/
theorem Tidy.not_issued_pushed (h : a.Tidy) (p : Handle) : ¬ a.Issued (a.push p).2 := by
  rintro (hlive | ⟨s, hs, hlt⟩)
  · exact not_live_iff.2 (h.frame?_pushed p) hlive
  · unfold Arena.push at hs hlt
    cases hfree : a.free with
    | nil => simp [hfree] at hs
    | cons i rest =>
      obtain ⟨n, hslot⟩ := h.slot_of_free_cons hfree
      simp only [hfree, hslot, Option.some.injEq] at hs hlt
      subst hs
      exact absurd hlt (UInt32.lt_irrefl _)

end Arena

/-! ## What events do -/

namespace Client

variable {c d : Client} {e : Event}

/-- What an event does to a client: the arena stays as it is while functions are passed on, or it
undergoes one operation, through a handle that was issued. -/
inductive Change (c : Client) (e : Event) : Client → Prop
  | hands (held : List Closure)
    (origin : ∀ fn ∈ held, fn ∈ c.held ∨ c.arena.Binds fn ∨ e = .receive fn) :
    Change c e { c with held := held }
  | push (p : Handle) (issued : p ∈ c.issued) :
    Change c e ⟨(c.arena.push p).1, c.issued ++ [(c.arena.push p).2], c.held⟩
  | enter (x : Handle) (issued : x ∈ c.issued) : Change c e { c with arena := c.arena.enter x }
  | release (x : Handle) (issued : x ∈ c.issued) :
    Change c e { c with arena := c.arena.release x c.held }
  | make (decl : FunDecl) :
    Change c e ⟨(c.arena.closure decl).1, c.issued, c.held ++ [(c.arena.closure decl).2]⟩
  | put (x : Handle) (name : String) (v : Value) (held : ∀ fn ∈ v.functions, fn ∈ c.held) :
    Change c e { c with arena := c.arena.put x name v }
  | collect : Change c e { c with arena := c.arena.collect c.held }

/-- Nothing changes. -/
theorem Change.refl (c : Client) (e : Event) : c.Change e c :=
  .hands c.held fun _ hfn => .inl hfn

/-- **An event makes one change.** -/
theorem change_meet (c : Client) (e : Event) : c.Change e (c.meet e) := by
  cases e with
  | receive fn =>
    refine .hands (c.held ++ [fn]) fun g hg => ?_
    rcases List.mem_append.1 hg with hg | hg
    · exact .inl hg
    · exact .inr (.inr (congrArg Event.receive (List.mem_singleton.1 hg).symm))
  | operation op =>
    cases op with
    | push i =>
      simp only [meet, perform]
      split
      · exact .push _ (List.mem_of_getElem? ‹_›)
      · exact .refl c _
    | enter i =>
      simp only [meet, perform]
      split
      · exact .enter _ (List.mem_of_getElem? ‹_›)
      · exact .refl c _
    | release i =>
      simp only [meet, perform]
      split
      · exact .release _ (List.mem_of_getElem? ‹_›)
      · exact .refl c _
    | closure decl => exact .make decl
    | clone i =>
      refine .hands (c.held ++ (c.held[i]?).toList) fun fn hfn => .inl ?_
      rcases List.mem_append.1 hfn with hfn | hfn
      · exact hfn
      · exact List.mem_of_getElem? (Option.mem_toList.1 hfn)
    | drop i => exact .hands (c.held.eraseIdx i) fun fn hfn => .inl (List.mem_of_mem_eraseIdx hfn)
    | define name arg =>
      simp only [meet, perform]
      split
      · rename_i v hv
        rcases Arena.define_cases c.arena name v with ⟨fault, h⟩ | ⟨-, h⟩
        · rw [h]
          exact .refl c _
        · rw [h]
          exact .put _ name v fun fn hfn => mem_held_of_value? hv hfn
      · exact .refl c _
    | assign name arg =>
      simp only [meet, perform]
      split
      · rename_i v hv
        rcases Arena.assign_cases c.arena name v with ⟨fault, h⟩ | ⟨x, -, h⟩
        · rw [h]
          exact .refl c _
        · rw [h]
          exact .put x name v fun fn hfn => mem_held_of_value? hv hfn
      · exact .refl c _
    | get name =>
      simp only [meet, perform]
      split
      · rename_i v hv
        refine .hands (c.held ++ v.functions) fun fn hfn => ?_
        rcases List.mem_append.1 hfn with hfn | hfn
        · exact .inl hfn
        · exact .inr (.inl (Arena.binds_of_get? hv hfn))
      · exact .refl c _
    | collect => exact .collect

/-- Every slot is given back at most once, and only if there is a frame in it. -/
theorem Change.ages (h : c.Change e d) : c.arena.Ages d.arena := by
  cases h with
  | hands held origin => exact Arena.ages_of_slots_eq rfl
  | push p issued => exact Arena.ages_push ..
  | enter x issued => exact Arena.ages_of_slots_eq rfl
  | release x issued => exact Arena.ages_release ..
  | make decl => exact Arena.ages_closure ..
  | put x name v held => exact Arena.ages_put ..
  | collect => exact Arena.ages_collect ..

/-! ## Whole histories -/

/-- No slot runs through all generations: counted from those of now on, none is given back as often
as there are. -/
def Counts (c : Client) (events : List Event) : Prop :=
  ∀ i, c.arena.age i + c.frees i events < UInt32.size

theorem Counts.arena {events : List Event} (h : c.Counts (e :: events)) :
    c.arena.Counts (c.meet e).arena := by
  intro i hi
  have hroom := h i
  rw [frees, if_pos hi] at hroom
  omega

theorem Counts.tail {events : List Event} (h : c.Counts (e :: events)) :
    (c.meet e).Counts events := by
  intro i
  have hroom := h i
  rw [(change_meet c e).ages.age_eq h.arena i]
  rw [frees] at hroom
  omega

/-- No slot of a new arena was given back. -/
theorem counts_new {policy : Policy} {n : Nat} {events : List Event}
    (h : ∀ i, (new policy n).frees i events < UInt32.size) : (new policy n).Counts events := by
  intro i
  have hage : (new policy n).arena.age i = 0 := by
    cases i <;> rfl
  rw [hage, Nat.zero_add]
  exact h i

/-- **The generation of a slot is the number of times it was given back.** -/
theorem age_history {events : List Event} (h : c.Counts events) (i : Nat) :
    (events.foldl meet c).arena.age i = c.arena.age i + c.frees i events := by
  induction events generalizing c with
  | nil => rfl
  | cons e events ih =>
    rw [List.foldl_cons, ih h.tail, (change_meet c e).ages.age_eq h.arena i, frees]
    omega

/-- What every event keeps, every history keeps. Events may be told apart by what they bring in. -/
theorem history_induction {P : Client → Prop} {events : List Event} (hstart : P c)
    (hcounts : c.Counts events)
    (hstep : ∀ c e d, e ∈ events → c.arena.Counts d.arena → c.Change e d → P c → P d) :
    P (events.foldl meet c) := by
  induction events generalizing c with
  | nil => exact hstart
  | cons e events ih =>
    refine ih (hstep c e _ List.mem_cons_self hcounts.arena (change_meet c e) hstart)
      hcounts.tail fun c e' d he' => hstep c e' d (List.mem_cons_of_mem _ he')

end Client

end Script
