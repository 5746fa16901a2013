import Script.Proofs.Arena.Frames
import Script.Proofs.Syntax.Positions

/-!
# Arenas that differ in what they carry along

The functions in an arena carry the positions of their declarations, and no operation on the arena
looks at them. The rule for defining a name twice is looked at in one place. Both can be changed
before an operation or after it.

- `Recast`: other positions, and possibly the permissive rule.
- `Value.recast`, `Frame.recast`, `Arena.recast`: what is changed accordingly.
- `define_recast`, `assign_recast`, `push_recast`, `closure_recast`, `release_recast`: each
  operation commutes with the change, a definition unless the strict rule refuses it.
-/

namespace Script

/-- A change to what a run carries along: positions are moved, and if `permits` is set, a name may
be defined twice. -/
structure Recast where
  move : Position → Position
  permits : Bool

namespace Recast

/-- The change of positions alone. -/
def moving (μ : Position → Position) : Recast := ⟨μ, false⟩

/-- The change of the rule alone. -/
def permitting : Recast := ⟨id, true⟩

@[simp] theorem move_moving (μ : Position → Position) : (moving μ).move = μ := rfl

/-- The rule after the change. -/
def rule (r : Recast) (policy : Policy) : Policy := if r.permits then .permissive else policy

@[simp] theorem rule_moving (μ : Position → Position) (policy : Policy) :
    (moving μ).rule policy = policy := rfl

end Recast

variable {r : Recast} {name : String} {v : Value}

/-! ## Values and frames -/

/-- The function with its declaration at other positions. -/
def Closure.recast (r : Recast) (f : Closure) : Closure := { f with decl := f.decl.moved r.move }

/-- The value with its declaration at other positions, if it is a function. -/
def Value.recast (r : Recast) : Value → Value
  | .function f => .function (f.recast r)
  | v => v

/-- The frame with its functions at other positions. -/
def Frame.recast (r : Recast) (f : Frame) : Frame :=
  { f with bindings := f.bindings.map fun b => (b.1, b.2.recast r) }

@[simp] theorem Value.functions_recast (v : Value) :
    (v.recast r).functions = v.functions.map (Closure.recast r) := by
  cases v <;> rfl

@[simp] theorem Value.isTruthy_recast (v : Value) : (v.recast r).isTruthy = v.isTruthy := by
  cases v <;> rfl

@[simp] theorem Value.text_recast (v : Value) : (v.recast r).text = v.text := by
  cases v with
  | function f => simp only [recast, Closure.recast, text, FunDecl.moved_eq]
  | _ => rfl

namespace Frame

theorem get?_recast (f : Frame) (name : String) :
    (f.recast r).get? name = (f.get? name).map (Value.recast r) :=
  getBinding_map (Value.recast r) name f.bindings

theorem binds_recast (f : Frame) (name : String) : (f.recast r).binds name = f.binds name := by
  unfold binds
  rw [get?_recast, Option.isSome_map]

theorem recast_put (f : Frame) (name : String) (v : Value) :
    (f.put name v).recast r = (f.recast r).put name (v.recast r) := by
  unfold put recast
  rw [putBinding_map]

theorem functions_recast (f : Frame) :
    (f.recast r).functions = f.functions.map (Closure.recast r) := by
  unfold functions recast
  simp only [List.flatMap_map, Value.functions_recast, List.map_flatMap]

theorem links_recast (f : Frame) : (f.recast r).links = f.links := by
  unfold links
  rw [functions_recast, List.map_map]
  rfl

end Frame

/-! ## Arenas -/

/-- The slot with its functions at other positions. -/
def Slot.recast (r : Recast) (s : Slot) : Slot := { s with frame := s.frame.map (Frame.recast r) }

/-- Changing an element before or after all elements are mapped. -/
theorem map_modify {α β : Type} (g : α → β) (f : α → α) (f' : β → β)
    (h : ∀ x, f' (g x) = g (f x)) (xs : Array α) (i : Nat) :
    (xs.map g).modify i f' = (xs.modify i f).map g := by
  refine Array.ext_getElem? fun j => ?_
  simp only [Array.getElem?_modify, Array.getElem?_map]
  by_cases hij : i = j
  · subst hij
    cases xs[i]? <;> simp [h]
  · simp [hij]

namespace Arena

/-- The arena with its functions at other positions, and with the rule after the change. -/
def recast (r : Recast) (a : Arena) : Arena :=
  { a with
    slots := a.slots.map (Slot.recast r)
    known := a.known.map (Closure.recast r)
    policy := r.rule a.policy }

variable (a : Arena) (x : Handle)

@[simp] theorem size_slots_recast : (a.recast r).slots.size = a.slots.size := Array.size_map

theorem frame?_recast : (a.recast r).frame? x = (a.frame? x).map (Frame.recast r) := by
  unfold frame? recast
  simp only [Array.getElem?_map]
  cases a.slots[x.index]? with
  | none => rfl
  | some s => by_cases h : s.generation = x.generation <;> simp [Slot.recast, h]

/-- What does the same to corresponding frames does the same to the arenas. -/
theorem updateFrame_recast {f f' : Frame → Frame}
    (h : ∀ g, f' (g.recast r) = (f g).recast r) :
    (a.recast r).updateFrame x f' = (a.updateFrame x f).recast r := by
  unfold updateFrame recast
  simp only [mk.injEq, and_true]
  refine map_modify _ _ _ (fun s => ?_) a.slots x.index
  obtain ⟨n, frame⟩ := s
  by_cases hn : n = x.generation
  · cases frame <;> simp [Slot.recast, hn, h]
  · simp [Slot.recast, hn]

/-! ## Looking up -/

theorem chainFrom_recast (fuel : Nat) (o : Option Handle) :
    (a.recast r).chainFrom fuel o =
      (a.chainFrom fuel o).map fun link => (link.1, link.2.recast r) := by
  fun_induction a.chainFrom fuel o with
  | case1 => rfl
  | case2 fuel hfuel =>
    cases fuel with
    | zero => exact absurd rfl hfuel
    | succ fuel => rfl
  | case3 fuel y hy => simp only [chainFrom, frame?_recast, hy, Option.map_none, List.map_nil]
  | case4 fuel y f hy ih =>
    simp only [chainFrom, frame?_recast, hy, Option.map_some, List.map_cons]
    rw [← ih]
    rfl

theorem chain_recast :
    (a.recast r).chain x = (a.chain x).map fun link => (link.1, link.2.recast r) := by
  unfold chain
  rw [size_slots_recast, chainFrom_recast]

theorem get?_recast (name : String) :
    (a.recast r).get? name = (a.get? name).map (Value.recast r) := by
  unfold get?
  rw [chain_recast]
  show (List.map _ (a.chain a.current)).findSome? _ = _
  induction a.chain a.current with
  | nil => rfl
  | cons link l ih =>
    rw [List.map_cons, List.findSome?_cons, List.findSome?_cons, Frame.get?_recast]
    cases link.2.get? name with
    | none => exact ih
    | some v => rfl

theorem owner?_recast (name : String) : (a.recast r).owner? name = a.owner? name := by
  have hbinds : ((fun link => link.2.binds name) ∘
      fun link : Handle × Frame => (link.1, link.2.recast r)) =
        fun link => link.2.binds name := funext fun link => Frame.binds_recast link.2 name
  unfold owner?
  rw [chain_recast, List.find?_map, hbinds, Option.map_map]
  rfl

/-! ## Variables -/

theorem put_recast (name : String) (v : Value) :
    (a.recast r).put x name (v.recast r) = (a.put x name v).recast r :=
  updateFrame_recast a x fun g => (Frame.recast_put g name v).symm

/-- A definition that the strict rule does not refuse, or that the change leaves under it. -/
theorem define_recast (name : String) (v : Value)
    (h : r.permits = true → (a.define name v).2 ≠ some (.redefined name)) :
    (a.recast r).define name (v.recast r) =
      ((a.define name v).1.recast r, (a.define name v).2) := by
  have hcurrent : (a.recast r).current = a.current := rfl
  have hpolicy : (a.recast r).policy = r.rule a.policy := rfl
  unfold define at h ⊢
  rw [frame?_recast, hcurrent, hpolicy]
  cases hf : a.frame? a.current with
  | none => rfl
  | some f =>
    rw [hf] at h
    simp only [Option.map_some, Frame.binds_recast] at h ⊢
    by_cases hrefused : (a.policy = .strict && f.binds name) = true
    · simp only [hrefused, if_true] at h ⊢
      -- what is refused is refused still, as the rule has not been changed
      have hkeeps : r.rule a.policy = a.policy :=
        if_neg fun hpermits => h hpermits rfl
      simp only [hkeeps, hrefused, if_true]
    · have hfree : ¬ (r.rule a.policy = .strict && f.binds name) = true := by
        unfold Recast.rule
        split
        · simp
        · exact hrefused
      simp only [hrefused, hfree, Bool.false_eq_true, if_false, put_recast]

theorem assign_recast (name : String) (v : Value) :
    (a.recast r).assign name (v.recast r) =
      ((a.assign name v).1.recast r, (a.assign name v).2) := by
  unfold assign
  rw [owner?_recast]
  cases a.owner? name with
  | none => rfl
  | some y => simp only [put_recast]

/-! ## Frames and functions -/

/-- A new frame binds nothing, and so carries no positions. -/
theorem push_recast (p : Handle) :
    (a.recast r).push p = ((a.push p).1.recast r, (a.push p).2) := by
  have hempty : (Frame.empty p).recast r = Frame.empty p := rfl
  have hfree : (a.recast r).free = a.free := rfl
  have hslots : (a.recast r).slots = a.slots.map (Slot.recast r) := rfl
  unfold push
  rw [hfree]
  cases hf : a.free with
  | nil => simp [recast, Slot.recast, hempty, hf]
  | cons i rest =>
    have hmodify := map_modify (Slot.recast r) (fun s => { s with frame := some (.empty p) })
      (fun s => { s with frame := some (.empty p) }) (fun s => rfl) a.slots i
    simp only [hslots, hmodify, Array.getElem?_map]
    cases a.slots[i]? <;> rfl

theorem pinAll_recast (hs : List Handle) :
    (a.recast r).pinAll hs = (a.pinAll hs).recast r := by
  unfold pinAll
  induction hs generalizing a with
  | nil => rfl
  | cons y hs ih =>
    rw [List.foldl_cons, List.foldl_cons, updateFrame_recast a y (f := Frame.pin) fun _ => rfl]
    exact ih (a.updateFrame y Frame.pin)

theorem unpinnedScopes_recast : (a.recast r).unpinnedScopes = a.unpinnedScopes := by
  unfold unpinnedScopes
  show (((a.recast r).chain a.current).takeWhile _).map _ = _
  rw [chain_recast, List.takeWhile_map, List.map_map]
  rfl

theorem closure_recast (decl : FunDecl) :
    (a.recast r).closure (decl.moved r.move) =
      ((a.closure decl).1.recast r, (a.closure decl).2.recast r) := by
  unfold closure
  rw [unpinnedScopes_recast, pinAll_recast]
  rfl

/-! ## Collecting -/

/-- A round meets the same slots, and frames that correspond. -/
theorem visit_recast (work : List Handle) (m : Array Bool) (fresh : List Frame) :
    (a.recast r).visit work m (fresh.map (Frame.recast r)) =
      ((a.visit work m fresh).1, (a.visit work m fresh).2.map (Frame.recast r)) := by
  fun_induction a.visit work m fresh with
  | case1 => rfl
  | case2 y rest m fresh hy ih => simp only [visit, frame?_recast, hy, Option.map_none, ih]
  | case3 y rest m fresh f hy hin hseen ih =>
    simp only [visit, frame?_recast, hy, Option.map_some, hin, hseen, dite_true, if_true, ih]
  | case4 y rest m fresh f hy hin hseen ih =>
    rw [List.map_cons] at ih
    simp only [visit, frame?_recast, hy, Option.map_some, hin, hseen, dite_true,
      Bool.false_eq_true, if_false, ih]
  | case5 y rest m fresh f hy hin ih =>
    simp only [visit, frame?_recast, hy, Option.map_some, hin, dite_false, ih]

theorem mark_recast (m : Array Bool) (work : List Handle) :
    (a.recast r).mark m work = a.mark m work := by
  fun_induction a.mark m work with
  | case1 m work next hvisit =>
    have hround := visit_recast (r := r) a work m []
    rw [hvisit] at hround
    rw [mark]
    split
    · rename_i next' hvisit'
      exact (congrArg Prod.fst (hvisit'.symm.trans hround))
    · rename_i hvisit'
      cases hvisit'.symm.trans hround
  | case2 m work next f fresh hvisit ih =>
    have hround := visit_recast (r := r) a work m []
    rw [hvisit] at hround
    rw [mark]
    split
    · rename_i hvisit'
      cases hvisit'.symm.trans hround
    · rename_i next' f' fresh' hvisit'
      obtain ⟨rfl, hfresh⟩ := Prod.mk.inj (hvisit'.symm.trans hround)
      rw [hfresh, List.flatMap_map]
      simp only [Frame.links_recast]
      exact ih

theorem tally_recast (fs : List Closure) : tally (fs.map (Closure.recast r)) = tally fs := by
  unfold tally
  rw [List.foldl_map]
  rfl

theorem boundFunctions_recast :
    (a.recast r).boundFunctions = a.boundFunctions.map (Closure.recast r) := by
  unfold boundFunctions recast
  simp only [Array.toList_map, List.flatMap_map, List.map_flatMap]
  refine congrArg (List.flatMap · a.slots.toList) (funext fun s => ?_)
  obtain ⟨n, frame⟩ := s
  cases frame with
  | none => rfl
  | some f => exact Frame.functions_recast f

theorem holders_recast (outside : List Closure) :
    (a.recast r).holders (outside.map (Closure.recast r)) = a.holders outside := by
  unfold holders
  rw [boundFunctions_recast, ← List.map_append, tally_recast]

theorem forget_recast (outside : List Closure) :
    (a.recast r).forget (outside.map (Closure.recast r)) = (a.forget outside).recast r := by
  unfold forget
  rw [holders_recast]
  show ({ a.recast r with known := (a.known.map (Closure.recast r)).filter _ } : Arena) = _
  rw [List.filter_map]
  rfl

theorem roots_recast (outside : List Closure) :
    (a.recast r).roots (outside.map (Closure.recast r)) = a.roots outside := by
  unfold roots
  rw [holders_recast, boundFunctions_recast, tally_recast]
  show global :: a.current :: (a.active ++ ((a.known.map (Closure.recast r)).filter _).map _) = _
  rw [List.filter_map, List.map_map]
  rfl

theorem freeSlot_recast (i : Nat) : (a.recast r).freeSlot i = (a.freeSlot i).recast r := by
  have hreclaims : (a.recast r).reclaims = a.reclaims := rfl
  unfold freeSlot
  rw [hreclaims]
  split
  · unfold recast
    simp only [mk.injEq, and_true]
    exact map_modify (Slot.recast r) (fun s => ⟨s.generation + 1, none⟩) _ (fun s => rfl)
      a.slots i
  · rfl

theorem unmarked_recast (m : Array Bool) : (a.recast r).unmarked m = a.unmarked m := by
  have hoccupied : ∀ i, (a.recast r).isOccupied i = a.isOccupied i := by
    intro i
    unfold isOccupied recast
    simp only [Array.getElem?_map]
    cases a.slots[i]? with
    | none => rfl
    | some s => exact Option.isSome_map
  unfold unmarked
  simp only [size_slots_recast, hoccupied]

theorem sweep_recast (m : Array Bool) : (a.recast r).sweep m = (a.sweep m).recast r := by
  unfold sweep
  rw [unmarked_recast]
  generalize a.unmarked m = is
  induction is generalizing a with
  | nil => rfl
  | cons i is ih => rw [List.foldl_cons, List.foldl_cons, freeSlot_recast, ih]

/-- A collection counts and marks, for which positions do not matter. -/
theorem collect_recast (outside : List Closure) :
    (a.recast r).collect (outside.map (Closure.recast r)) = (a.collect outside).recast r := by
  have hroots : ((a.forget outside).recast r).roots (outside.map (Closure.recast r)) =
      (a.forget outside).roots outside := roots_recast ..
  unfold collect
  simp only [forget_recast, hroots, mark_recast, size_slots_recast, sweep_recast]
  simp only [recast, live, Array.size_map]

theorem retire_recast : (a.recast r).retire x = (a.retire x).recast r := by
  have hsame : ({ a.recast r with active := (a.recast r).active.erase x } : Arena) =
      ({ a with active := a.active.erase x } : Arena).recast r := rfl
  unfold retire
  simp only [hsame, frame?_recast, freeSlot_recast]
  cases ({ a with active := a.active.erase x } : Arena).frame? x with
  | none => rfl
  | some f =>
    simp only [Option.map_some]
    show (if f.pinned = true then _ else _) = Arena.recast r (if f.pinned = true then _ else _)
    split <;> rfl

theorem release_recast (outside : List Closure) :
    (a.recast r).release x (outside.map (Closure.recast r)) = (a.release x outside).recast r := by
  have hpinned : (a.recast r).isPinned x = a.isPinned x := by
    unfold isPinned
    rw [frame?_recast]
    cases a.frame? x <;> rfl
  have hthreshold : (a.recast r).threshold = a.threshold := rfl
  have hretained : (a.recast r).retained = a.retained := rfl
  unfold release
  rw [hpinned, hthreshold, hretained, retire_recast, collect_recast]
  split <;> rfl

end Arena

/-! ## No change, and two changes -/

variable {μ ν : Position → Position}

@[simp] theorem Closure.recast_id (f : Closure) : f.recast (.moving id) = f := by
  simp only [recast, Recast.move_moving, FunDecl.moved_id]

@[simp] theorem Value.recast_id (v : Value) : v.recast (.moving id) = v := by
  cases v with
  | function f => exact congrArg Value.function (Closure.recast_id f)
  | _ => rfl

theorem Frame.recast_id (f : Frame) : f.recast (.moving id) = f := by
  simp only [recast, Value.recast_id, List.map_id']

theorem Slot.recast_id (s : Slot) : s.recast (.moving id) = s := by
  have hframe : Frame.recast (.moving id) = id := funext Frame.recast_id
  simp only [recast, hframe, Option.map_id_fun, id_eq]

theorem Arena.recast_id (a : Arena) : a.recast (.moving id) = a := by
  have hslot : Slot.recast (.moving id) = id := funext Slot.recast_id
  have hclosure : Closure.recast (.moving id) = id := funext Closure.recast_id
  simp only [recast, hslot, hclosure, Array.map_id, List.map_id, Recast.rule_moving]

@[simp] theorem Closure.recast_recast (f : Closure) :
    (f.recast (.moving μ)).recast (.moving ν) = f.recast (.moving (ν ∘ μ)) := by
  simp only [recast, Recast.move_moving, FunDecl.moved_moved]

@[simp] theorem Value.recast_recast (v : Value) :
    (v.recast (.moving μ)).recast (.moving ν) = v.recast (.moving (ν ∘ μ)) := by
  cases v with
  | function f => exact congrArg Value.function (Closure.recast_recast f)
  | _ => rfl

theorem Frame.recast_recast (f : Frame) :
    (f.recast (.moving μ)).recast (.moving ν) = f.recast (.moving (ν ∘ μ)) := by
  simp only [recast, List.map_map, Function.comp_def, Value.recast_recast]

theorem Slot.recast_recast (s : Slot) :
    (s.recast (.moving μ)).recast (.moving ν) = s.recast (.moving (ν ∘ μ)) := by
  simp only [recast, Option.map_map, Function.comp_def, Frame.recast_recast]

theorem Arena.recast_recast (a : Arena) :
    (a.recast (.moving μ)).recast (.moving ν) = a.recast (.moving (ν ∘ μ)) := by
  simp only [recast, Array.map_map, List.map_map, Function.comp_def, Slot.recast_recast,
    Closure.recast_recast, Recast.rule_moving]

/-! ## Only the positions of functions are moved -/

theorem Closure.recast_congr {f : Closure} (h : ∀ p ∈ f.decl.positions, μ p = ν p) :
    f.recast (.moving μ) = f.recast (.moving ν) := by
  simp only [recast, Recast.move_moving, FunDecl.moved_congr h]

theorem Value.recast_congr {v : Value}
    (h : ∀ f ∈ v.functions, ∀ p ∈ f.decl.positions, μ p = ν p) :
    v.recast (.moving μ) = v.recast (.moving ν) := by
  cases v with
  | function f => exact congrArg Value.function (Closure.recast_congr (h f List.mem_cons_self))
  | _ => rfl

theorem Frame.recast_congr {f : Frame}
    (h : ∀ fn ∈ f.functions, ∀ p ∈ fn.decl.positions, μ p = ν p) :
    f.recast (.moving μ) = f.recast (.moving ν) := by
  have hbindings : f.bindings.map (fun b => (b.1, b.2.recast (.moving μ))) =
      f.bindings.map fun b => (b.1, b.2.recast (.moving ν)) := by
    refine List.map_congr_left fun b hb => ?_
    rw [Value.recast_congr fun fn hfn => h fn (List.mem_flatMap.2 ⟨b, hb, hfn⟩)]
  simp only [recast, hbindings]

/-- An arena does not change when no function in it is moved. -/
theorem Arena.recast_congr {a : Arena}
    (h : ∀ f ∈ a.known ++ a.boundFunctions, ∀ p ∈ f.decl.positions, μ p = ν p) :
    a.recast (.moving μ) = a.recast (.moving ν) := by
  have hslots : a.slots.map (Slot.recast (.moving μ)) = a.slots.map (Slot.recast (.moving ν)) := by
    refine Array.map_congr_left fun s hs => ?_
    obtain ⟨generation, frame⟩ := s
    cases frame with
    | none => rfl
    | some f =>
      refine congrArg (fun f => Slot.mk generation (some f)) (Frame.recast_congr fun fn hfn => ?_)
      refine h fn (List.mem_append_right _ (List.mem_flatMap.2 ⟨_, Array.mem_toList_iff.2 hs, ?_⟩))
      exact hfn
  have hknown : a.known.map (Closure.recast (.moving μ)) =
      a.known.map (Closure.recast (.moving ν)) :=
    List.map_congr_left fun f hf => Closure.recast_congr (h f (List.mem_append_left _ hf))
  simp only [recast, hslots, hknown, Recast.rule_moving]

end Script
