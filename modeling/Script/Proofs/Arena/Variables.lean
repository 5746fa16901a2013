import Script.Proofs.Arena.Walks

/-!
# Variables and functions

What looking names up, setting variables and making functions do to the frames of an arena.

- `binds_of_get?`: the functions a name stands for are bound in some frame.
- `define_cases`, `assign_cases`: a variable of a frame is set, or nothing changes.
- `frame?_closure`: a new function pins frames and changes nothing else about them.
-/

namespace Script

namespace Arena

variable {a : Arena} {x y : Handle} {f : Frame} {name : String} {v : Value} {fn : Closure}

/-! ## Looking up -/

/-- The value of a name is the value of a variable in some frame. -/
theorem exists_frame_of_get? (h : a.get? name = some v) :
    ∃ x f, a.frame? x = some f ∧ f.get? name = some v := by
  obtain ⟨⟨x, f⟩, hmem, hv⟩ := List.exists_of_findSome?_eq_some h
  exact ⟨x, f, frame?_of_mem_chainFrom hmem, hv⟩

theorem binds_of_get? (h : a.get? name = some v) (hfn : fn ∈ v.functions) : a.Binds fn := by
  obtain ⟨x, f, hf, hv⟩ := exists_frame_of_get? h
  exact ⟨x, f, hf, Frame.mem_functions_of_get? hv hfn⟩

/-- The variable that a name means belongs to a frame that binds it. -/
theorem exists_frame_of_owner? (h : a.owner? name = some x) :
    ∃ f, a.frame? x = some f ∧ f.binds name = true := by
  obtain ⟨⟨y, f⟩, hfind, rfl⟩ := Option.map_eq_some_iff.1 h
  refine ⟨f, frame?_of_mem_chainFrom (List.mem_of_find?_eq_some hfind), ?_⟩
  exact List.find?_some (p := fun link : Handle × Frame => link.2.binds name) hfind

/-! ## Setting a variable -/

theorem frame?_put (a : Arena) (x y : Handle) (name : String) (v : Value) :
    (a.put x name v).frame? y =
      if y = x then (a.frame? x).map (·.put name v) else a.frame? y :=
  frame?_updateFrame ..

/-- Setting a variable changes neither which handles name frames, nor parents, nor pins. -/
theorem map_frame?_put {β : Type} (view : Frame → β)
    (hview : ∀ f : Frame, view (f.put name v) = view f) (x y : Handle) :
    ((a.put x name v).frame? y).map view = (a.frame? y).map view := by
  rw [frame?_put]
  by_cases h : y = x
  · subst h
    rw [if_pos rfl]
    cases a.frame? y with
    | none => rfl
    | some f => simp [hview]
  · rw [if_neg h]

theorem live_put_iff : (a.put x name v).Live y ↔ a.Live y := live_updateFrame_iff _

theorem Tidy.put (h : a.Tidy) (x : Handle) (name : String) (v : Value) : (a.put x name v).Tidy :=
  h.updateFrame x _

theorem Grounded.put (h : a.Grounded) (x : Handle) (name : String) (v : Value) :
    (a.put x name v).Grounded :=
  h.of_parents fun y => map_frame?_put (·.parent) (fun f => Frame.parent_put f name v) x y

/-- After a variable is set, the functions bound are old ones and those of the value. -/
theorem binds_put (h : (a.put x name v).Binds fn) : a.Binds fn ∨ fn ∈ v.functions := by
  obtain ⟨y, f, hf, hmem⟩ := h
  rw [frame?_put] at hf
  split at hf
  · obtain ⟨g, hg, rfl⟩ := Option.map_eq_some_iff.1 hf
    exact (Frame.mem_functions_put hmem).imp (fun h => ⟨x, g, hg, h⟩) id
  · exact .inl ⟨y, f, hf, hmem⟩

/-- A definition sets a variable of the innermost frame, or changes nothing. -/
theorem define_cases (a : Arena) (name : String) (v : Value) :
    (∃ fault, a.define name v = (a, some fault)) ∨
      a.Live a.current ∧ a.define name v = (a.put a.current name v, none) := by
  unfold define
  cases hf : a.frame? a.current with
  | none => exact .inl ⟨_, rfl⟩
  | some f =>
    by_cases h : (a.policy = .strict && f.binds name) = true
    · exact .inl ⟨.redefined name, by simp only [h, if_true]⟩
    · exact .inr ⟨⟨f, hf⟩, by simp only [h, Bool.false_eq_true, if_false]⟩

/-- After a definition, the functions bound are old ones and those of the value. -/
theorem binds_define (h : (a.define name v).1.Binds fn) : a.Binds fn ∨ fn ∈ v.functions := by
  rcases define_cases a name v with ⟨fault, hd⟩ | ⟨-, hd⟩
  · rw [hd] at h
    exact .inl h
  · rw [hd] at h
    exact binds_put h

/-- An assignment sets a variable of the frame that the name belongs to, or changes nothing. -/
theorem assign_cases (a : Arena) (name : String) (v : Value) :
    (∃ fault, a.assign name v = (a, some fault)) ∨
      ∃ x, a.owner? name = some x ∧ a.assign name v = (a.put x name v, none) := by
  unfold assign
  cases h : a.owner? name with
  | none => exact .inl ⟨_, rfl⟩
  | some x => exact .inr ⟨x, rfl, rfl⟩

@[simp] theorem active_define (a : Arena) (name : String) (v : Value) :
    (a.define name v).1.active = a.active := by
  rcases define_cases a name v with ⟨fault, h⟩ | ⟨-, h⟩ <;> simp [h, put, updateFrame]

@[simp] theorem current_define (a : Arena) (name : String) (v : Value) :
    (a.define name v).1.current = a.current := by
  rcases define_cases a name v with ⟨fault, h⟩ | ⟨-, h⟩ <;> simp [h, put, updateFrame]

@[simp] theorem nextFunction_define (a : Arena) (name : String) (v : Value) :
    (a.define name v).1.nextFunction = a.nextFunction := by
  rcases define_cases a name v with ⟨fault, h⟩ | ⟨-, h⟩ <;> simp [h, put, updateFrame]

/-! ## New functions -/

theorem Frame.pin_pin (f : Frame) : f.pin.pin = f.pin := rfl

/-- Pinning changes the slots and nothing else. -/
theorem pinAll_eq (a : Arena) (xs : List Handle) :
    a.pinAll xs = { a with slots := (a.pinAll xs).slots } := by
  induction xs generalizing a with
  | nil => rfl
  | cons x xs ih =>
    show (a.updateFrame x Frame.pin).pinAll xs = _
    rw [ih]
    rfl

@[simp] theorem known_pinAll (a : Arena) (xs : List Handle) : (a.pinAll xs).known = a.known := by
  rw [pinAll_eq]

@[simp] theorem active_pinAll (a : Arena) (xs : List Handle) :
    (a.pinAll xs).active = a.active := by
  rw [pinAll_eq]

@[simp] theorem current_pinAll (a : Arena) (xs : List Handle) :
    (a.pinAll xs).current = a.current := by
  rw [pinAll_eq]

@[simp] theorem policy_pinAll (a : Arena) (xs : List Handle) :
    (a.pinAll xs).policy = a.policy := by
  rw [pinAll_eq]

@[simp] theorem reclaims_pinAll (a : Arena) (xs : List Handle) :
    (a.pinAll xs).reclaims = a.reclaims := by
  rw [pinAll_eq]

theorem frame?_pinAll (a : Arena) (xs : List Handle) (x : Handle) :
    (a.pinAll xs).frame? x = (a.frame? x).map fun f => if x ∈ xs then f.pin else f := by
  induction xs generalizing a with
  | nil => simp [pinAll]
  | cons y ys ih =>
    show ((a.updateFrame y Frame.pin).pinAll ys).frame? x = _
    rw [ih, frame?_updateFrame]
    by_cases h : x = y
    · subst h
      cases a.frame? x <;> simp [Frame.pin_pin]
    · cases a.frame? x <;> simp [h]

theorem Tidy.pinAll (h : a.Tidy) (xs : List Handle) : (a.pinAll xs).Tidy := by
  induction xs generalizing a with
  | nil => exact h
  | cons x xs ih => exact ih (h.updateFrame x _)

variable {decl : FunDecl}

@[simp] theorem closure_snd (a : Arena) (decl : FunDecl) :
    (a.closure decl).2 = ⟨a.nextFunction, decl, a.current⟩ := rfl

@[simp] theorem known_closure (a : Arena) (decl : FunDecl) :
    (a.closure decl).1.known = (a.closure decl).2 :: a.known := by
  simp [closure]

@[simp] theorem active_closure (a : Arena) (decl : FunDecl) :
    (a.closure decl).1.active = a.active := by
  simp [closure]

@[simp] theorem current_closure (a : Arena) (decl : FunDecl) :
    (a.closure decl).1.current = a.current := by
  simp [closure]

@[simp] theorem policy_closure (a : Arena) (decl : FunDecl) :
    (a.closure decl).1.policy = a.policy := by
  simp [closure]

@[simp] theorem reclaims_closure (a : Arena) (decl : FunDecl) :
    (a.closure decl).1.reclaims = a.reclaims := by
  simp [closure]

@[simp] theorem nextFunction_closure (a : Arena) (decl : FunDecl) :
    (a.closure decl).1.nextFunction = a.nextFunction + 1 := rfl

/-- A new function pins the unpinned scopes it captures and changes no frame otherwise. -/
theorem frame?_closure (a : Arena) (decl : FunDecl) (x : Handle) :
    (a.closure decl).1.frame? x =
      (a.frame? x).map fun f => if x ∈ a.unpinnedScopes then f.pin else f := by
  rw [← frame?_pinAll]
  exact frame?_congr rfl x

/-- A new function changes neither which handles name frames, nor parents, nor bindings. -/
theorem map_frame?_closure {β : Type} (view : Frame → β)
    (hview : ∀ f : Frame, view f.pin = view f) (x : Handle) :
    ((a.closure decl).1.frame? x).map view = (a.frame? x).map view := by
  rw [frame?_closure, Option.map_map]
  refine congrArg (fun view => (a.frame? x).map view) (funext fun f => ?_)
  by_cases h : x ∈ a.unpinnedScopes <;> simp [h, hview]

theorem live_closure_iff : (a.closure decl).1.Live x ↔ a.Live x := by
  unfold Live
  rw [frame?_closure]
  cases a.frame? x <;> simp

theorem Tidy.closure (h : a.Tidy) (decl : FunDecl) : (a.closure decl).1.Tidy :=
  (h.pinAll a.unpinnedScopes).congr rfl rfl

theorem Grounded.closure (h : a.Grounded) (decl : FunDecl) : (a.closure decl).1.Grounded :=
  h.of_parents fun x => map_frame?_closure (·.parent) Frame.parent_pin x

theorem binds_closure (h : (a.closure decl).1.Binds fn) : a.Binds fn := by
  obtain ⟨x, f, hf, hmem⟩ := h
  have hmap : ((a.closure decl).1.frame? x).map (·.functions) = _ :=
    map_frame?_closure (·.functions) Frame.functions_pin x
  rw [hf, Option.map_some] at hmap
  obtain ⟨g, hg, hfunctions⟩ := Option.map_eq_some_iff.1 hmap.symm
  exact ⟨x, g, hg, hfunctions ▸ hmem⟩

/-- Going outwards from `o`, the unpinned frames come before a pinned one: the frame at `o` is one
of them or pinned, and so is the parent of each of them. -/
theorem Walk.unpinned_closed {o : Option Handle} {l : List (Handle × Frame)} (h : a.Walk o l) :
    (∀ x f, o = some x → a.frame? x = some f → f.pinned = true ∨
      x ∈ (l.takeWhile fun link => !link.2.pinned).map (·.1)) ∧
    ∀ x ∈ (l.takeWhile fun link => !link.2.pinned).map (·.1), ∀ f p g, a.frame? x = some f →
      f.parent = some p → a.frame? p = some g → g.pinned = true ∨
        p ∈ (l.takeWhile fun link => !link.2.pinned).map (·.1) := by
  -- both at once: the parent of an unpinned frame is where the rest of the walk begins
  induction h with
  | outermost => exact ⟨fun x f h => (nomatch h), fun x h => (nomatch h)⟩
  | lost hx =>
    refine ⟨fun y f h hf => ?_, fun y h => (nomatch h)⟩
    obtain rfl := Option.some.inj h
    rw [hx] at hf
    cases hf
  | @inside x f l hx _ ih =>
    cases hpinned : f.pinned with
    | true =>
      refine ⟨fun y g h hg => ?_, fun y h => by simp [hpinned] at h⟩
      obtain rfl := Option.some.inj h
      obtain rfl := Option.some.inj (hx.symm.trans hg)
      exact .inl hpinned
    | false =>
      rw [List.takeWhile_cons_of_pos (by simp [hpinned]), List.map_cons]
      refine ⟨fun y g h hg => ?_, fun y h g p q hg hparent hq => ?_⟩
      · obtain rfl := Option.some.inj h
        exact .inr List.mem_cons_self
      · rcases List.mem_cons.1 h with rfl | h
        · obtain rfl := Option.some.inj (hx.symm.trans hg)
          exact (ih.1 p q hparent hq).imp id (List.mem_cons_of_mem _)
        · exact (ih.2 y h g p q hg hparent hq).imp id (List.mem_cons_of_mem _)

end Arena

end Script
