import Script.Value

/-!
# The frame arena

Frames hold the variables of a scope and name the frame of the scope around them. They live in
slots that are used again once a frame has been freed; a handle names a frame by its slot and by
the number of times the slot had been freed when the frame was put there, so the handle of a freed
frame names nothing.

- `Frame`, `Slot`, `Arena`: the data.
- `Arena.frame?`, `Arena.chain`: the frame that a handle names, and the frames around it.
- `Arena.push`, `Arena.enter`, `Arena.closure`: a new frame, a change of the innermost scope, a new
  function.
- `Arena.freeSlot`, `Arena.live`: giving a slot back, and the number of frames that hold one.
-/

namespace Script

/-- What happens when a name is defined twice in one frame. -/
inductive Policy
  | strict
  | permissive
  deriving DecidableEq, Inhabited

/-! ## Frames -/

/-- The variables of a scope, and the frame of the scope around it. A function may refer to a
pinned frame, so a pinned frame outlives its scope. -/
structure Frame where
  bindings : List (String × Value)
  parent : Option Handle
  pinned : Bool
  deriving Inhabited

namespace Frame

/-- A frame without variables. -/
def empty (parent : Handle) : Frame := ⟨[], some parent, false⟩

/-- The value bound to a name. -/
def getBinding (name : String) : List (String × Value) → Option Value
  | [] => none
  | (n, w) :: rest => if name = n then some w else getBinding name rest

/-- The value of a variable. -/
def get? (f : Frame) (name : String) : Option Value := getBinding name f.bindings

/-- Whether a frame binds a name. -/
def binds (f : Frame) (name : String) : Bool := (f.get? name).isSome

/-- Gives the variable `name` a value, in its old place if it is there already. -/
def putBinding (name : String) (v : Value) : List (String × Value) → List (String × Value)
  | [] => [(name, v)]
  | (n, w) :: rest => if name = n then (name, v) :: rest else (n, w) :: putBinding name v rest

/-- The frame with a variable set, whether or not it was bound before. -/
def put (f : Frame) (name : String) (v : Value) : Frame :=
  { f with bindings := putBinding name v f.bindings }

/-- The frame, which from now on outlives its scope. -/
def pin (f : Frame) : Frame := { f with pinned := true }

/-- The functions bound in a frame, one entry for each binding. -/
def functions (f : Frame) : List Closure := f.bindings.flatMap fun b => b.2.functions

/-- The frames that a frame refers to: the one around it and those its functions captured. -/
def links (f : Frame) : List Handle := f.parent.toList ++ f.functions.map (·.captured)

@[simp] theorem get?_put_self (f : Frame) (name : String) (v : Value) :
    (f.put name v).get? name = some v := by
  simp only [get?, put]
  induction f.bindings with
  | nil => simp [putBinding, getBinding]
  | cons b rest ih => by_cases h : name = b.1 <;> simp [putBinding, getBinding, h, ih]

theorem get?_put_of_ne {name other : String} (h : other ≠ name) (f : Frame) (v : Value) :
    (f.put name v).get? other = f.get? other := by
  simp only [get?, put]
  induction f.bindings with
  | nil => simp [putBinding, getBinding, h]
  | cons b rest ih =>
    by_cases hb : name = b.1
    · have : other ≠ b.1 := hb ▸ h
      simp [putBinding, getBinding, ← hb, h]
    · by_cases ho : other = b.1 <;> simp [putBinding, getBinding, hb, ho, ih]

@[simp] theorem parent_put (f : Frame) (name : String) (v : Value) :
    (f.put name v).parent = f.parent := rfl

end Frame

/-! ## The arena -/

/-- A place for a frame, with the number of frames that were freed from it, counted modulo
`2 ^ 32`. -/
structure Slot where
  generation : UInt32
  frame : Option Frame
  deriving Inhabited

/-- The frames of a running program. -/
structure Arena where
  /-- The slots in use and the slots that are free. -/
  slots : Array Slot
  /-- The free slots, the one freed last in front. -/
  free : List Nat
  /-- The innermost scope. -/
  current : Handle
  /-- The frames pushed and not yet released, the latest in front. -/
  active : List Handle
  /-- The functions made here, the latest in front; those that nothing holds are dropped when frames
  are collected. -/
  known : List Closure
  /-- The identity of the next function. -/
  nextFunction : Nat
  /-- How many pinned frames were released since frames were last collected. -/
  retained : Nat
  /-- How many pinned frames are released before frames are collected. -/
  threshold : Nat
  policy : Policy
  /-- Whether frames are freed at all. An arena that keeps every frame shows what a program does
  when no slot is ever used twice. -/
  reclaims : Bool

namespace Arena

/-- The frame of the top-level scope. -/
def global : Handle := ⟨0, 0⟩

/-- The least number of pinned frames released between two collections. -/
def minThreshold : Nat := 256

/-- An arena with the top-level frame only; the functions made in it are numbered from
`firstFunction` on. -/
def new (policy : Policy) (firstFunction : Nat) : Arena where
  slots := #[⟨0, some ⟨[], none, true⟩⟩]
  free := []
  current := global
  active := []
  known := []
  nextFunction := firstFunction
  retained := 0
  threshold := minThreshold
  policy := policy
  reclaims := true

/-- The arena with the same frames, which from now on frees none. -/
def keeping (a : Arena) : Arena := { a with reclaims := false }

/-! ## Reading -/

/-- The frame that a handle names, unless it was freed. -/
def frame? (a : Arena) (h : Handle) : Option Frame :=
  match a.slots[h.index]? with
  | some s => if s.generation = h.generation then s.frame else none
  | none => none

/-- At most `fuel` frames from the one that `h` names outwards. A handle that names no frame ends
the walk. -/
def chainFrom (a : Arena) : Nat → Option Handle → List (Handle × Frame)
  | 0, _ => []
  | _, none => []
  | fuel + 1, some h =>
    match a.frame? h with
    | none => []
    | some f => (h, f) :: a.chainFrom fuel f.parent

/-- The frames from the one that `h` names outwards, innermost first. No frame stands in its own
chain, so there are no more frames in a chain than there are slots. -/
def chain (a : Arena) (h : Handle) : List (Handle × Frame) :=
  a.chainFrom a.slots.size (some h)

/-- The number of frames that hold a slot. -/
def live (a : Arena) : Nat := a.slots.size - a.free.length

/-! ## Changing -/

/-- Changes the frame that a handle names; does nothing if it was freed. -/
def updateFrame (a : Arena) (h : Handle) (change : Frame → Frame) : Arena :=
  { a with
    slots := a.slots.modify h.index fun s =>
      if s.generation = h.generation then { s with frame := s.frame.map change } else s }

/-- A new frame inside the frame that `parent` names, in the slot freed last if one is free. The
frame is active until it is released. -/
def push (a : Arena) (parent : Handle) : Arena × Handle :=
  match a.free with
  | [] =>
    let h : Handle := ⟨a.slots.size, 0⟩
    ({ a with
      slots := a.slots.push ⟨0, some (.empty parent)⟩
      active := h :: a.active }, h)
  | index :: free =>
    let generation := match a.slots[index]? with
      | some s => s.generation
      | none => 0
    let h : Handle := ⟨index, generation⟩
    ({ a with
      slots := a.slots.modify index fun s => { s with frame := some (.empty parent) }
      free := free
      active := h :: a.active }, h)

/-- Makes the frame that `h` names the innermost scope. -/
def enter (a : Arena) (h : Handle) : Arena := { a with current := h }

/-- Gives the slot at `index` back, so that the handle of its frame names nothing any more. An arena
that keeps every frame leaves the slot as it is. -/
def freeSlot (a : Arena) (index : Nat) : Arena :=
  if a.reclaims then
    { a with
      slots := a.slots.modify index fun s => ⟨s.generation + 1, none⟩
      free := index :: a.free }
  else a

/-- Pins the frames that handles name. -/
def pinAll (a : Arena) (hs : List Handle) : Arena :=
  hs.foldl (fun a h => a.updateFrame h Frame.pin) a

/-- The frames from the innermost scope outwards up to the first that is pinned. -/
def unpinnedScopes (a : Arena) : List Handle :=
  ((a.chain a.current).takeWhile fun link => !link.2.pinned).map (·.1)

/-- A new function that captures the innermost scope. Its frame and the frames around it are pinned
up to the first that is pinned already. -/
def closure (a : Arena) (decl : FunDecl) : Arena × Closure :=
  let f : Closure := ⟨a.nextFunction, decl, a.current⟩
  let pinned := a.pinAll a.unpinnedScopes
  ({ pinned with known := f :: pinned.known, nextFunction := f.identity + 1 }, f)

end Arena

end Script
