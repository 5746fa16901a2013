import Script.Arena.Basic
import Std.Data.TreeMap

/-!
# Reclaiming frames

A frame that no function can refer to is freed when its scope ends. A pinned frame waits until
frames are collected, which frees every frame that cannot be reached.

- `Arena.visit`, `Arena.mark`: the slots that given handles name, and those that can be reached from
  them.
- `Arena.roots`: where reaching begins: the top-level frame, the innermost scope, the active frames,
  and what the functions held outside the arena captured. Those are found by counting: they have
  more holders than there are bindings that hold them.
- `Arena.sweep`: frees the frames that are not marked.
- `Arena.collect`: frees what cannot be reached.
- `Arena.release`: ends a scope; collects once enough pinned frames were released.

What is held outside the arena (operands, arguments, results on their way, values the host keeps)
is not known here, so `collect` and `release` are told.
-/

namespace Script.Arena

/-! ## Marking -/

/-- Marks the slots of the frames that handles name; gives the marks and, in front of `fresh`, the
frames whose slots were not marked before. -/
def visit (a : Arena) : List Handle → Array Bool → List Frame → Array Bool × List Frame
  | [], marked, fresh => (marked, fresh)
  | h :: rest, marked, fresh =>
    match a.frame? h with
    | none => a.visit rest marked fresh
    | some f =>
      if inside : h.index < marked.size then
        if marked[h.index] then a.visit rest marked fresh
        else a.visit rest (marked.set h.index true) (f :: fresh)
      else a.visit rest marked fresh

/-- Marking a slot that was not marked leaves one fewer that is not. -/
theorem count_false_set {marked : Array Bool} {i : Nat} (inside : i < marked.size)
    (unmarked : marked[i] = false) :
    (marked.set i true).count false + 1 = marked.count false := by
  have : 0 < marked.count false := Array.count_pos_iff.2 (unmarked ▸ Array.getElem_mem inside)
  rw [Array.count_set inside, unmarked]
  show marked.count false - 1 + 0 + 1 = marked.count false
  omega

/-- Every fresh frame stands for a slot that was not marked before. -/
theorem count_visit (a : Arena) (work : List Handle) (marked : Array Bool) (fresh : List Frame) :
    (a.visit work marked fresh).1.count false + (a.visit work marked fresh).2.length =
      marked.count false + fresh.length := by
  fun_induction visit a work marked fresh with
  | case1 => rfl
  | case2 _ _ _ _ _ ih => exact ih
  | case3 _ _ _ _ _ _ _ _ ih => exact ih
  | case4 marked fresh h rest f _ inside seen ih =>
    have := count_false_set inside (Bool.eq_false_iff.2 seen)
    rw [List.length_cons] at ih
    omega
  | case5 _ _ _ _ _ _ _ ih => exact ih

/-- Marks every slot that can be reached from the handles `work` through frames that are not marked
yet: first those the handles name, then those that the fresh ones among them refer to, and so on
until none is fresh. -/
def mark (a : Arena) (marked : Array Bool) (work : List Handle) : Array Bool :=
  match _h : a.visit work marked [] with
  | (next, []) => next
  | (next, f :: fresh) => a.mark next ((f :: fresh).flatMap Frame.links)
termination_by marked.count false
decreasing_by
  have := a.count_visit work marked []
  rw [_h] at this
  simp only [List.length_cons, List.length_nil] at this
  omega

/-! ## Roots -/

/-- How often each function is listed, by identity. -/
def tally (fs : List Closure) : Std.TreeMap Nat Nat :=
  fs.foldl (fun counts f => counts.insert f.identity (counts.getD f.identity 0 + 1)) ∅

/-- The functions bound in frames, one entry for each binding. -/
def boundFunctions (a : Arena) : List Closure :=
  a.slots.toList.flatMap fun s =>
    match s.frame with
    | some f => f.functions
    | none => []

/-- How many holders each function has: the bindings of frames and what is outside the arena. -/
def holders (a : Arena) (outside : List Closure) : Std.TreeMap Nat Nat :=
  tally (a.boundFunctions ++ outside)

/-- Drops the functions that have no holder. -/
def forget (a : Arena) (outside : List Closure) : Arena :=
  let holders := a.holders outside
  { a with known := a.known.filter fun f => 0 < holders.getD f.identity 0 }

/-- The handles from which frames are reached when `outside` lists the functions that are held
outside the arena, one entry for each holder. A function is held there if it has more holders than
bindings. -/
def roots (a : Arena) (outside : List Closure) : List Handle :=
  let holders := a.holders outside
  let bindings := tally a.boundFunctions
  global :: a.current ::
    (a.active ++ (a.known.filter fun f =>
      bindings.getD f.identity 0 < holders.getD f.identity 0).map (·.captured))

/-! ## Collecting and releasing -/

/-- Whether a slot holds a frame. -/
def isOccupied (a : Arena) (i : Nat) : Bool :=
  match a.slots[i]? with
  | some s => s.frame.isSome
  | none => false

/-- The slots that hold a frame and are not marked. -/
def unmarked (a : Arena) (marked : Array Bool) : List Nat :=
  (List.range a.slots.size).filter fun i => a.isOccupied i && !(marked[i]?).getD false

/-- Frees the frames in slots that are not marked, in the order of the slots. -/
def sweep (a : Arena) (marked : Array Bool) : Arena :=
  (a.unmarked marked).foldl freeSlot a

/-- Frees every frame that cannot be reached when `outside` lists the functions that are held
outside the arena. -/
def collect (a : Arena) (outside : List Closure) : Arena :=
  let a := a.forget outside
  let marked := a.mark (Array.replicate a.slots.size false) (a.roots outside)
  let a := a.sweep marked
  { a with retained := 0, threshold := max (2 * a.live) minThreshold }

/-- Ends the scope of a frame, which is then no longer active. A frame that is not pinned is freed;
a pinned frame is counted as retained. -/
def retire (a : Arena) (h : Handle) : Arena :=
  let a := { a with active := a.active.erase h }
  match a.frame? h with
  | none => a
  | some f => if f.pinned then { a with retained := a.retained + 1 } else a.freeSlot h.index

/-- Whether a handle names a pinned frame. -/
def isPinned (a : Arena) (h : Handle) : Bool :=
  match a.frame? h with
  | some f => f.pinned
  | none => false

/-- Ends the scope of a frame, and collects frames if it was pinned and enough pinned frames were
released. The functions held outside the arena are looked at only then. -/
@[macro_inline]
def release (a : Arena) (h : Handle) (outside : List Closure) : Arena :=
  if a.isPinned h && a.threshold ≤ a.retained + 1 then (a.retire h).collect outside
  else a.retire h

end Script.Arena
