import Script.Proofs.Arena.Mirroring

/-!
# Arenas that differ in the names of their frames

Which handle a new frame gets depends on what was freed before. Two arenas that free different
frames can nevertheless hold the same frames under different names. Here one of them frees nothing,
and the frames of the other are found in it under new names.

- `Arena.Embeds`: an arena is found, under new names, in one that keeps every frame.
- `Embeds.mirrors`: so all that a running program does in it is done there as well.
- `Embeds.get?`: names have the same values.
-/

namespace Script

namespace Arena

/-! ## Embeddings -/

/-- The frames of `a` are found, under the names that `φ` gives them, in an arena `b` that keeps
every frame. -/
structure Embeds (φ : Handle → Handle) (a b : Arena) : Prop where
  keeps : b.reclaims = false
  tidy : b.Tidy
  frame : ∀ x f, a.frame? x = some f → b.frame? (φ x) = some (f.rename φ)
  injective : ∀ x y, a.Live x → a.Live y → φ x = φ y → x = y
  toplevel : φ global = global
  current : b.current = φ a.current
  active : b.active = a.active.map φ
  nextFunction : b.nextFunction = a.nextFunction
  policy : b.policy = a.policy

variable {φ : Handle → Handle} {a b : Arena} {since : Nat} {held : Closure → Prop}

/-- An arena is found in the one with the same frames that keeps them. -/
theorem embeds_keeping (h : a.Tidy) : a.Embeds id a.keeping where
  keeps := rfl
  tidy := h.congr rfl rfl
  frame x f hf := by rw [Frame.rename_id]; exact hf
  injective _ _ _ _ h := h
  toplevel := rfl
  current := rfl
  active := (List.map_id _).symm
  nextFunction := rfl
  policy := rfl

/-- All frames are found in the arena that keeps every frame. -/
theorem Embeds.mirrors (h : a.Embeds φ b) (hs : a.Sound since held) :
    a.Mirrors {x | a.Live x} φ b where
  frame := by
    rintro x ⟨f, hf⟩
    exact ⟨f, hf, h.frame x f hf, hs.live_link hf⟩
  injective x hx y hy heq := h.injective x y hx hy heq
  nextFunction := h.nextFunction
  policy := h.policy
  inside := hs.current
  current := h.current

/-- A name has the same value under new names. -/
theorem Embeds.get? (h : a.Embeds φ b) (hs : a.Sound since held) (name : String) :
    b.get? name = (a.get? name).map (Value.rename φ) :=
  ((h.mirrors hs).get? hs.grounded name).1

/-- No handle dangles in an arena that from now on keeps every frame. -/
theorem Sound.keeping (h : a.Sound since held) : a.keeping.Sound since held :=
  { h with
    tidy := h.tidy.congr rfl rfl
    grounded := h.grounded.of_parents fun _ => rfl
    unpinned := fun hreclaims => by cases hreclaims
    carries := fun fn hfn =>
      have hold := h.carries fn hfn
      ⟨hold.known, hold.since, hold.numbered, hold.captured⟩ }

/-- An arena that keeps every frame keeps them when a scope ends. -/
theorem frame?_release_of_keeps (h : b.reclaims = false) (x y : Handle) (outside : List Closure) :
    (b.release x outside).frame? y = b.frame? y := by
  have hretire : (b.retire x).frame? y = b.frame? y := by
    rcases retire_cases b x with ⟨-, hx⟩ | ⟨f, -, -, hx⟩ | ⟨f, -, -, hx⟩
    · rw [hx]
      rfl
    · rw [hx]
      rfl
    · rw [hx, freeSlot_of_keeps (a := { b with active := b.active.erase x }) h]
      rfl
  rcases release_cases b x outside with hx | hx
  · rw [hx, hretire]
  · rw [hx, frame?_collect_of_keeps ((reclaims_retire ..).trans h), hretire]

end Arena

end Script
