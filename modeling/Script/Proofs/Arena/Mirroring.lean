import Mathlib.Data.Set.Function
import Script.Proofs.Arena.Soundness

/-!
# Frames under new names

Which handle a new frame gets depends on what was freed before, and on what else there is. Some of
the frames of an arena can nevertheless be found in another one, under new names. If they refer to
each other only, then whatever is done within them is done in both arenas.

- `Value.rename`, `Frame.rename`: values and frames under new names of frames.
- `Arena.Corresponds`: given frames of an arena are found in another one.
- `Arena.Mirrors`: the innermost scope of both is one of these frames.
- `Arena.Spares`: frames outside of a given set are left as they are.
- `Mirrors.get?`, `Mirrors.define`, `Mirrors.assign`, `Mirrors.closure`, `Corresponds.pushed`,
  `Corresponds.left`: what a running program does in one arena, and in the other.
- `Arena.Follows`, `Arena.Later`, `Arena.Traces`: how two arenas have changed together.
-/

namespace Script

/-! ## New names -/

/-- A function under new names of frames. -/
def Closure.rename (φ : Handle → Handle) (f : Closure) : Closure :=
  { f with captured := φ f.captured }

/-- A value under new names of frames. -/
def Value.rename (φ : Handle → Handle) : Value → Value
  | .function f => .function (f.rename φ)
  | v => v

/-- A frame under new names of frames. -/
def Frame.rename (φ : Handle → Handle) (f : Frame) : Frame where
  bindings := f.bindings.map fun b => (b.1, b.2.rename φ)
  parent := f.parent.map φ
  pinned := f.pinned

variable {φ ψ : Handle → Handle} {name : String} {v : Value} {f : Frame}

/-- Only the frames that its functions captured matter to a value. -/
theorem Value.rename_congr (h : ∀ fn ∈ v.functions, ψ fn.captured = φ fn.captured) :
    v.rename ψ = v.rename φ := by
  cases v with
  | function fn => simp [rename, Closure.rename, h fn List.mem_cons_self]
  | _ => rfl

@[simp] theorem Value.rename_id (v : Value) : v.rename id = v := by
  cases v <;> rfl

@[simp] theorem Value.isTruthy_rename (v : Value) : (v.rename φ).isTruthy = v.isTruthy := by
  cases v <;> rfl

@[simp] theorem Value.text_rename (v : Value) : (v.rename φ).text = v.text := by
  cases v <;> rfl

theorem Value.functions_rename (v : Value) :
    (v.rename φ).functions = v.functions.map (Closure.rename φ) := by
  cases v <;> rfl

namespace Frame

@[simp] theorem rename_empty (p : Handle) : (empty p).rename φ = empty (φ p) := rfl

@[simp] theorem rename_id (f : Frame) : f.rename id = f := by
  simp [rename]

theorem get?_rename (f : Frame) (name : String) :
    (f.rename φ).get? name = (f.get? name).map (Value.rename φ) :=
  getBinding_map (Value.rename φ) name f.bindings

theorem binds_rename (f : Frame) (name : String) : (f.rename φ).binds name = f.binds name := by
  unfold binds
  rw [get?_rename, Option.isSome_map]

theorem rename_put (f : Frame) (name : String) (v : Value) :
    (f.put name v).rename φ = (f.rename φ).put name (v.rename φ) := by
  unfold put rename
  rw [putBinding_map]

theorem functions_rename (f : Frame) :
    (f.rename φ).functions = f.functions.map (Closure.rename φ) := by
  unfold functions rename
  rw [List.flatMap_map, List.map_flatMap]
  exact List.flatMap_congr fun b _ => Value.functions_rename b.2

/-- A frame refers to the same frames under new names. -/
theorem links_rename (f : Frame) : (f.rename φ).links = f.links.map φ := by
  unfold links
  rw [functions_rename, List.map_append, List.map_map, List.map_map]
  refine congr (congrArg _ ?_) rfl
  cases f with
  | mk bindings parent pinned => cases parent <;> rfl

/-- Only the frames that a frame refers to matter to it. -/
theorem rename_congr (h : ∀ x ∈ f.links, ψ x = φ x) : f.rename ψ = f.rename φ := by
  unfold rename
  have hparent : f.parent.map ψ = f.parent.map φ := by
    cases hp : f.parent with
    | none => rfl
    | some p => exact congrArg some (h p (parent_mem_links hp))
  have hbindings : (f.bindings.map fun b => (b.1, b.2.rename ψ)) =
      f.bindings.map fun b => (b.1, b.2.rename φ) := by
    refine List.map_congr_left fun b hb => congrArg (Prod.mk b.1) (Value.rename_congr ?_)
    exact fun fn hfn => h _ (captured_mem_links (List.mem_flatMap.2 ⟨b, hb, hfn⟩))
  rw [hparent, hbindings]

end Frame

namespace Arena

variable {a b a' b' : Arena} {V W : Set Handle} {x p : Handle} {since : Nat}
  {held : Closure → Prop}

/-! ## Frames that are found in another arena -/

/-- The frames in `V` are found in `b` under the names that `φ` gives them, and refer to each other
only. -/
structure Corresponds (V : Set Handle) (φ : Handle → Handle) (a b : Arena) : Prop where
  frame : ∀ x ∈ V, ∃ f, a.frame? x = some f ∧ b.frame? (φ x) = some (f.rename φ) ∧
    ∀ y ∈ f.links, y ∈ V
  injective : V.InjOn φ
  nextFunction : b.nextFunction = a.nextFunction
  policy : b.policy = a.policy

/-- The innermost scope is one of the frames that are found in `b`, and is the innermost scope
there. -/
structure Mirrors (V : Set Handle) (φ : Handle → Handle) (a b : Arena) : Prop
    extends a.Corresponds V φ b where
  inside : a.current ∈ V
  current : b.current = φ a.current

theorem Corresponds.live (h : a.Corresponds V φ b) (hx : x ∈ V) : a.Live x ∧ b.Live (φ x) := by
  obtain ⟨f, hf, hf', -⟩ := h.frame x hx
  exact ⟨⟨f, hf⟩, _, hf'⟩

/-! ## Looking up -/

/-- Walking outwards from one of these frames meets these frames only. -/
theorem Corresponds.walk (h : a.Corresponds V φ b) {o : Option Handle} {l : List (Handle × Frame)}
    (hwalk : a.Walk o l) (ho : ∀ x, o = some x → x ∈ V) :
    b.Walk (o.map φ) (l.map fun link => (φ link.1, link.2.rename φ)) ∧ ∀ link ∈ l, link.1 ∈ V := by
  induction hwalk with
  | outermost => exact ⟨.outermost, fun link hlink => nomatch hlink⟩
  | @lost x hx =>
    obtain ⟨f, hf, -⟩ := h.frame x (ho x rfl)
    rw [hx] at hf
    cases hf
  | @inside x f l hx _ ih =>
    obtain ⟨g, hg, hg', hlinks⟩ := h.frame x (ho x rfl)
    obtain rfl := Option.some.inj (hx.symm.trans hg)
    obtain ⟨hrest, hmem⟩ := ih fun p hp => hlinks p (Frame.parent_mem_links hp)
    exact ⟨.inside hg' hrest, List.forall_mem_cons.2 ⟨ho x rfl, hmem⟩⟩

theorem Mirrors.chain (h : a.Mirrors V φ b) (ha : a.Grounded) :
    b.chain b.current = (a.chain a.current).map (fun link => (φ link.1, link.2.rename φ)) ∧
      ∀ link ∈ a.chain a.current, link.1 ∈ V := by
  obtain ⟨l, hl⟩ := ha a.current
  obtain ⟨hwalk, hmem⟩ := h.walk hl fun x hx => Option.some.inj hx ▸ h.inside
  rw [h.current, chain_eq_of_walk hl]
  exact ⟨chain_eq_of_walk hwalk, hmem⟩

/-- A name has the same value under new names. -/
theorem Mirrors.get? (h : a.Mirrors V φ b) (ha : a.Grounded) (name : String) :
    b.get? name = (a.get? name).map (Value.rename φ) ∧
      ∀ v, a.get? name = some v → ∀ fn ∈ v.functions, fn.captured ∈ V := by
  obtain ⟨hchain, hmem⟩ := h.chain ha
  constructor
  · unfold Arena.get?
    rw [hchain]
    induction a.chain a.current with
    | nil => rfl
    | cons link l ih =>
      rw [List.map_cons, List.findSome?_cons, List.findSome?_cons, Frame.get?_rename]
      cases link.2.get? name with
      | none => exact ih
      | some v => rfl
  · intro v hv fn hfn
    obtain ⟨⟨x, f⟩, hlink, hf⟩ := List.exists_of_findSome?_eq_some hv
    obtain ⟨g, hg, -, hlinks⟩ := h.frame x (hmem _ hlink)
    obtain rfl := Option.some.inj ((frame?_of_mem_chainFrom hlink).symm.trans hg)
    exact hlinks _ (Frame.captured_mem_links (Frame.mem_functions_of_get? hf hfn))

theorem Mirrors.owner? (h : a.Mirrors V φ b) (ha : a.Grounded) (name : String) :
    b.owner? name = (a.owner? name).map φ ∧ ∀ x, a.owner? name = some x → x ∈ V := by
  obtain ⟨hchain, hmem⟩ := h.chain ha
  have hbinds : ((fun link => link.2.binds name) ∘
      fun link : Handle × Frame => (φ link.1, link.2.rename φ)) =
        fun link => link.2.binds name := funext fun link => Frame.binds_rename link.2 name
  constructor
  · unfold Arena.owner?
    rw [hchain, List.find?_map, hbinds, Option.map_map, Option.map_map]
    rfl
  · intro x hx
    obtain ⟨link, hfind, rfl⟩ := Option.map_eq_some_iff.1 hx
    exact hmem link (List.mem_of_find?_eq_some hfind)

theorem Mirrors.unpinnedScopes (h : a.Mirrors V φ b) (ha : a.Grounded) :
    b.unpinnedScopes = a.unpinnedScopes.map φ ∧ ∀ x ∈ a.unpinnedScopes, x ∈ V := by
  obtain ⟨hchain, hmem⟩ := h.chain ha
  constructor
  · unfold Arena.unpinnedScopes
    rw [hchain, List.takeWhile_map, List.map_map, List.map_map]
    rfl
  · intro x hx
    obtain ⟨link, hlink, rfl⟩ := List.mem_map.1 hx
    exact hmem link ((List.takeWhile_sublist _).subset hlink)

/-! ## Changing -/

/-- Two arenas are changed in the same way, and only in the frames that are found in both. -/
structure Follows (V : Set Handle) (φ : Handle → Handle) (a b a' b' : Arena) : Prop where
  mirrors : a'.Mirrors V φ b'
  first : ∀ x, x ∉ V → a'.frame? x = a.frame? x
  second : ∀ y, y ∉ φ '' V → b'.frame? y = b.frame? y

theorem Mirrors.refl (h : a.Mirrors V φ b) : Follows V φ a b a b :=
  ⟨h, fun _ _ => rfl, fun _ _ => rfl⟩

theorem Follows.trans {a'' b'' : Arena} (h : Follows V φ a b a' b')
    (h' : Follows V φ a' b' a'' b'') : Follows V φ a b a'' b'' :=
  ⟨h'.mirrors, fun x hx => (h'.first x hx).trans (h.first x hx),
    fun y hy => (h'.second y hy).trans (h.second y hy)⟩

/-- A variable of one of the frames is set. -/
theorem Mirrors.put (h : a.Mirrors V φ b) (hx : x ∈ V)
    (hv : ∀ fn ∈ v.functions, fn.captured ∈ V) (name : String) :
    Follows V φ a b (a.put x name v) (b.put (φ x) name (v.rename φ)) where
  mirrors :=
    { h with
      frame := by
        intro y hy
        obtain ⟨f, hf, hf', hlinks⟩ := h.frame y hy
        rw [frame?_put, frame?_put]
        by_cases hyx : y = x
        · subst hyx
          rw [if_pos rfl, if_pos rfl, hf, hf', Option.map_some, Option.map_some]
          refine ⟨f.put name v, rfl, by rw [Frame.rename_put], fun z hz => ?_⟩
          rcases List.mem_append.1 hz with hz | hz
          · exact hlinks z (List.mem_append_left _ hz)
          · obtain ⟨fn, hfn, rfl⟩ := List.mem_map.1 hz
            rcases Frame.mem_functions_put hfn with hfn | hfn
            · exact hlinks _ (Frame.captured_mem_links hfn)
            · exact hv fn hfn
        -- no other frame is found under the name of the one that is changed
        · rw [if_neg hyx, if_neg fun heq => hyx (h.injective hy hx heq)]
          exact ⟨f, hf, hf', hlinks⟩ }
  first y hy := by
    rw [frame?_put, if_neg]
    rintro rfl
    exact hy hx
  second y hy := by
    rw [frame?_put, if_neg]
    rintro rfl
    exact hy (Set.mem_image_of_mem φ hx)

/-- Definitions agree under new names, in what they do and in why they fail. -/
theorem Mirrors.define (h : a.Mirrors V φ b) (hv : ∀ fn ∈ v.functions, fn.captured ∈ V)
    (name : String) :
    Follows V φ a b (a.define name v).1 (b.define name (v.rename φ)).1 ∧
      (b.define name (v.rename φ)).2 = (a.define name v).2 := by
  obtain ⟨f, hf, hf', -⟩ := h.frame _ h.inside
  rw [← h.current] at hf'
  unfold Arena.define
  rw [hf, hf']
  simp only [h.policy, Frame.binds_rename]
  split
  · exact ⟨h.refl, rfl⟩
  · refine ⟨?_, rfl⟩
    rw [h.current]
    exact h.put h.inside hv name

/-- Assignments agree under new names. -/
theorem Mirrors.assign (h : a.Mirrors V φ b) (ha : a.Grounded)
    (hv : ∀ fn ∈ v.functions, fn.captured ∈ V) (name : String) :
    Follows V φ a b (a.assign name v).1 (b.assign name (v.rename φ)).1 ∧
      (b.assign name (v.rename φ)).2 = (a.assign name v).2 := by
  obtain ⟨howner, hmem⟩ := h.owner? ha name
  unfold Arena.assign
  rw [howner]
  cases hx : a.owner? name with
  | none => exact ⟨h.refl, rfl⟩
  | some x => exact ⟨h.put (hmem x hx) hv name, rfl⟩

/-- A new function pins only the scopes around it. -/
theorem frame?_closure_of_not_mem (decl : FunDecl) (hx : x ∉ a.unpinnedScopes) :
    (a.closure decl).1.frame? x = a.frame? x := by
  rw [frame?_closure]
  simp only [if_neg hx, Option.map_id']

/-- New functions agree under new names: only frames that are found in both are pinned. -/
theorem Mirrors.closure (h : a.Mirrors V φ b) (ha : a.Grounded) (decl : FunDecl) :
    Follows V φ a b (a.closure decl).1 (b.closure decl).1 ∧
      (b.closure decl).2 = (a.closure decl).2.rename φ := by
  obtain ⟨hscopes, hmem⟩ := h.unpinnedScopes ha
  have hpinned {y : Handle} (hy : y ∈ V) : φ y ∈ b.unpinnedScopes ↔ y ∈ a.unpinnedScopes := by
    rw [hscopes]
    refine ⟨fun hφ => ?_, List.mem_map_of_mem⟩
    obtain ⟨z, hz, heq⟩ := List.mem_map.1 hφ
    exact h.injective (hmem z hz) hy heq ▸ hz
  refine ⟨⟨?mirrors, fun x hx => ?first, fun y hy => ?second⟩, ?_⟩
  case mirrors =>
    exact
      { frame := by
          intro y hy
          obtain ⟨f, hf, hf', hlinks⟩ := h.frame y hy
          rw [frame?_closure, frame?_closure, hf, hf', Option.map_some, Option.map_some]
          by_cases hmem : y ∈ a.unpinnedScopes
          · rw [if_pos hmem, if_pos ((hpinned hy).2 hmem)]
            exact ⟨f.pin, rfl, rfl, hlinks⟩
          · rw [if_neg hmem, if_neg fun hφ => hmem ((hpinned hy).1 hφ)]
            exact ⟨f, rfl, rfl, hlinks⟩
        injective := h.injective
        nextFunction := congrArg (· + 1) h.nextFunction
        policy := by rw [policy_closure, policy_closure]; exact h.policy
        inside := by rw [current_closure]; exact h.inside
        current := by rw [current_closure, current_closure]; exact h.current }
  case first =>
    exact frame?_closure_of_not_mem decl fun hscope => hx (hmem x hscope)
  case second =>
    refine frame?_closure_of_not_mem decl fun hscope => hy ?_
    rw [hscopes] at hscope
    obtain ⟨x, hx, rfl⟩ := List.mem_map.1 hscope
    exact Set.mem_image_of_mem φ (hmem x hx)
  · rw [closure_snd, closure_snd, h.nextFunction, h.current]
    rfl

/-! ## What becomes of the frames -/

/-- Frames outside of `V` that are still there hold what they held. -/
def Spares (V : Set Handle) (a a' : Arena) : Prop :=
  ∀ x, x ∉ V → ∀ f g, a.frame? x = some f → a'.frame? x = some g → g = f

/-- The arenas `a` and `b` become `a'` and `b'`, where the frames in `W` are found in both under the
names that `ψ` gives them. Names stay, and a frame is given up only when it is no longer in both;
frames that are added are new in both; and all others are left as they are. -/
structure Later (V : Set Handle) (φ : Handle → Handle) (a b : Arena) (W : Set Handle)
    (ψ : Handle → Handle) (a' b' : Arena) : Prop where
  names : ∀ x ∈ V, ψ x = φ x
  keeps : ∀ x ∈ V, a'.Live x → b'.Live (φ x) → x ∈ W
  fresh : ∀ x ∈ W, x ∈ V ∨ ¬ a.Live x ∧ ¬ b.Live (ψ x)
  first : Spares V a a'
  second : Spares (φ '' V) b b'

theorem spares_of_eq (h : ∀ x, x ∉ V → a'.frame? x = a.frame? x) : Spares V a a' := by
  intro x hx f g hf hg
  rw [h x hx, hf] at hg
  exact (Option.some.inj hg).symm

theorem Follows.later (h : Follows V φ a b a' b') : Later V φ a b V φ a' b' where
  names _ _ := rfl
  keeps _ hx _ _ := hx
  fresh _ hx := .inl hx
  first := spares_of_eq h.first
  second := spares_of_eq h.second

/-- Further changes within the frames that are found in both. -/
theorem Later.follows {a'' b'' : Arena} (h : Later V φ a b W ψ a' b')
    (h' : Follows W ψ a' b' a'' b'') (hV : ∀ x ∈ V, x ∈ W) : Later V φ a b W ψ a'' b'' where
  names := h.names
  keeps x hx _ _ := hV x hx
  fresh := h.fresh
  first x hx f g hf hg := by
    -- a frame that is changed further is one of those in `V`, or was not there at first
    by_cases hxW : x ∈ W
    · exact absurd ⟨f, hf⟩ ((h.fresh x hxW).resolve_left hx).1
    · exact h.first x hx f g hf ((h'.first x hxW).symm.trans hg)
  second y hy f g hf hg := by
    by_cases hyW : y ∈ ψ '' W
    · obtain ⟨x, hxW, rfl⟩ := hyW
      have hx : x ∉ V := fun hx => hy ⟨x, hx, (h.names x hx).symm⟩
      exact absurd ⟨f, hf⟩ ((h.fresh x hxW).resolve_left hx).2
    · exact h.second y hy f g hf ((h'.second y hyW).symm.trans hg)

/-! ## Entering and leaving scopes -/

/-- A new innermost scope inside one of the frames is found in both, under a new name. -/
theorem Corresponds.pushed (h : a.Corresponds V φ b) (ha : a.Tidy) (hb : b.Tidy) (hp : p ∈ V) :
    ∃ ψ : Handle → Handle, ψ (a.push p).2 = (b.push (φ p)).2 ∧
      Arena.Mirrors (insert (a.push p).2 V) ψ ((a.push p).1.enter (a.push p).2)
        ((b.push (φ p)).1.enter (b.push (φ p)).2) ∧
      Later V φ a b (insert (a.push p).2 V) ψ ((a.push p).1.enter (a.push p).2)
        ((b.push (φ p)).1.enter (b.push (φ p)).2) := by
  have hnew : ¬ a.Live (a.push p).2 := not_live_iff.2 (ha.frame?_pushed p)
  have hnew' : ¬ b.Live (b.push (φ p)).2 := not_live_iff.2 (hb.frame?_pushed (φ p))
  have hold {x : Handle} (hx : x ∈ V) : x ≠ (a.push p).2 := by
    rintro rfl
    exact hnew (h.live hx).1
  have hold' {x : Handle} (hx : x ∈ V) : φ x ≠ (b.push (φ p)).2 := fun heq =>
    hnew' (heq ▸ (h.live hx).2)
  -- the handle of the new frame may have named a freed frame before, whose name is given up
  obtain ⟨ψ, hψ⟩ : ∃ ψ, ψ = Function.update φ (a.push p).2 (b.push (φ p)).2 := ⟨_, rfl⟩
  have hψnew : ψ (a.push p).2 = (b.push (φ p)).2 := by rw [hψ, Function.update_self]
  have hψold : ∀ x ∈ V, ψ x = φ x := fun x hx => by rw [hψ, Function.update_of_ne (hold hx)]
  refine ⟨ψ, hψnew, ?_, ?_⟩
  · exact
      { frame := by
          rintro x (rfl | hx)
          · refine ⟨.empty p, ?_, ?_, fun y hy => ?_⟩
            · rw [frame?_enter, ha.frame?_push, if_pos rfl]
            · rw [frame?_enter, hψnew, hb.frame?_push, if_pos rfl, Frame.rename_empty, hψold p hp]
            · obtain rfl := List.mem_singleton.1 hy
              exact Set.mem_insert_of_mem _ hp
          · obtain ⟨f, hf, hf', hlinks⟩ := h.frame x hx
            refine ⟨f, ?_, ?_, fun y hy => Set.mem_insert_of_mem _ (hlinks y hy)⟩
            · exact ha.frame?_push_of_live p hf
            · rw [hψold x hx, Frame.rename_congr fun y hy => hψold y (hlinks y hy)]
              exact hb.frame?_push_of_live (φ p) hf'
        injective := by
          rintro x (rfl | hx) y (rfl | hy) heq
          · rfl
          · rw [hψnew, hψold y hy] at heq
            exact absurd heq.symm (hold' hy)
          · rw [hψnew, hψold x hx] at heq
            exact absurd heq (hold' hx)
          · rw [hψold x hx, hψold y hy] at heq
            exact h.injective hx hy heq
        nextFunction := by
          show (b.push (φ p)).1.nextFunction = (a.push p).1.nextFunction
          rw [nextFunction_push, nextFunction_push, h.nextFunction]
        policy := by
          show (b.push (φ p)).1.policy = (a.push p).1.policy
          rw [policy_push, policy_push, h.policy]
        inside := Set.mem_insert _ _
        current := hψnew.symm }
  · exact
      { names := hψold
        keeps := fun x hx _ _ => Set.mem_insert_of_mem _ hx
        fresh := by
          rintro x (rfl | hx)
          · exact .inr ⟨hnew, hψnew ▸ hnew'⟩
          · exact .inl hx
        first := by
          intro x _ f g hf hg
          rw [frame?_enter, ha.frame?_push_of_live p hf] at hg
          exact (Option.some.inj hg).symm
        second := by
          intro y _ f g hf hg
          rw [frame?_enter, hb.frame?_push_of_live (φ p) hf] at hg
          exact (Option.some.inj hg).symm }

/-- The arena `a'` has lost frames of `a` at most, and `x` is its innermost scope. -/
structure GoesBack (a : Arena) (x : Handle) (a' : Arena) : Prop where
  within : a'.Within a
  current : a'.current = x
  nextFunction : a'.nextFunction = a.nextFunction
  policy : a'.policy = a.policy

theorem goesBack_release (a : Arena) (caller x : Handle) (outside : List Closure) :
    a.GoesBack caller ((a.enter caller).release x outside) where
  within := within_release (a.enter caller) x outside
  current := current_release ..
  nextFunction := nextFunction_release ..
  policy := policy_release ..

/-- The frames in `V` that are still there in both. -/
def remaining (V : Set Handle) (φ : Handle → Handle) (a b : Arena) : Set Handle :=
  {x ∈ V | a.Live x ∧ b.Live (φ x)}

/-- What the frames of an arena refer to is there. -/
def Closed (a : Arena) : Prop := ∀ x f, a.frame? x = some f → ∀ y ∈ f.links, a.Live y

theorem Sound.closed (h : a.Sound since held) : a.Closed := fun _ _ hf => h.live_link hf

/-- Both go back to some scope. Not always the same frames are freed. But no link dangles, so the
frames that are left in both refer to each other only. -/
theorem Corresponds.left {y : Handle} (h : a.Corresponds V φ b) (ha : a.GoesBack x a')
    (hb : b.GoesBack y b') (hclosed : a'.Closed) (hclosed' : b'.Closed) :
    a'.Corresponds (remaining V φ a' b') φ b' ∧
      Later V φ a b (remaining V φ a' b') φ a' b' := by
  constructor
  · exact
      { frame := by
          rintro z ⟨hz, ⟨f, hf⟩, g, hg⟩
          obtain ⟨f', hf', hg', hlinks⟩ := h.frame z hz
          obtain rfl := Option.some.inj ((ha.within z f hf).symm.trans hf')
          obtain rfl := Option.some.inj ((hb.within _ g hg).symm.trans hg')
          refine ⟨f, hf, hg, fun w hw => ⟨hlinks w hw, hclosed z f hf w hw, ?_⟩⟩
          refine hclosed' _ _ hg (φ w) ?_
          rw [Frame.links_rename]
          exact List.mem_map_of_mem hw
        injective := h.injective.mono fun z hz => hz.1
        nextFunction := by rw [ha.nextFunction, hb.nextFunction, h.nextFunction]
        policy := by rw [ha.policy, hb.policy, h.policy] }
  · exact
      { names := fun _ _ => rfl
        keeps := fun z hz hlive hlive' => ⟨hz, hlive, hlive'⟩
        fresh := fun z hz => .inl hz.1
        first := fun z _ f g hf hg => Option.some.inj ((ha.within z g hg).symm.trans hf)
        second := fun z _ f g hf hg => Option.some.inj ((hb.within z g hg).symm.trans hf) }

/-- Both go back to a scope among the frames that are found in both. -/
theorem Corresponds.left_inside (h : a.Corresponds V φ b) (hx : x ∈ V) (ha : a.GoesBack x a')
    (hb : b.GoesBack (φ x) b') (hclosed : a'.Closed) (hclosed' : b'.Closed)
    (hcurrent : a'.Live a'.current) (hcurrent' : b'.Live b'.current) :
    a'.Mirrors (remaining V φ a' b') φ b' := by
  obtain ⟨hleft, -⟩ := h.left ha hb hclosed hclosed'
  exact
    { hleft with
      inside := by
        refine ⟨ha.current ▸ hx, hcurrent, ?_⟩
        rw [ha.current, ← hb.current]
        exact hcurrent'
      current := by rw [ha.current, hb.current] }

/-! ## From beginning to end -/

/-- The arenas `a` and `b` have become `a'` and `b'`, where the frames in `W` are found in both
under the names that `ψ` gives them. At first the frames in `R` were the same in both. Those that
have been there all the time, `there` in the one and `there'` in the other, still have their names,
and every other name is that of a newer frame. Frames outside of `R` that have been there all the
time are as they were. -/
structure Traces (R : Set Handle) (there there' : Handle → Prop) (a b : Arena) (W : Set Handle)
    (ψ : Handle → Handle) (a' b' : Arena) : Prop where
  kept : ∀ x ∈ R, there x → there' x → x ∈ W ∧ ψ x = x
  fresh : ∀ x ∈ W, x ∈ R ∧ ψ x = x ∨ ¬ there x ∧ ¬ there' (ψ x)
  first : ∀ x, x ∉ R → there x → a'.frame? x = a.frame? x
  second : ∀ y, y ∉ R → there' y → b'.frame? y = b.frame? y

variable {R : Set Handle} {there there' still still' : Handle → Prop}

theorem traces_refl : Traces R there there' a b R id a b :=
  ⟨fun _ hx _ _ => ⟨hx, rfl⟩, fun _ hx => .inl ⟨hx, rfl⟩, fun _ _ _ => rfl, fun _ _ _ => rfl⟩

theorem Traces.mono (h : Traces R there there' a b W ψ a' b') (hstill : ∀ x, still x → there x)
    (hstill' : ∀ x, still' x → there' x) : Traces R still still' a b W ψ a' b' where
  kept x hx hs ht := h.kept x hx (hstill x hs) (hstill' x ht)
  fresh x hx := (h.fresh x hx).imp id fun hold => ⟨hold.1 ∘ hstill x, hold.2 ∘ hstill' _⟩
  first x hx hs := h.first x hx (hstill x hs)
  second y hy ht := h.second y hy (hstill' y ht)

/-- What changes later leaves the traces of what has changed before. -/
theorem Traces.later {a'' b'' : Arena} (h : Traces R there there' a b V φ a' b')
    (hlater : Later V φ a' b' W ψ a'' b'')
    (hstill : ∀ x, still x → there x ∧ a'.Live x ∧ a''.Live x)
    (hstill' : ∀ x, still' x → there' x ∧ b'.Live x ∧ b''.Live x) :
    Traces R still still' a b W ψ a'' b'' where
  kept x hx hs ht := by
    obtain ⟨hthere, -, hlive⟩ := hstill x hs
    obtain ⟨hthere', -, hlive'⟩ := hstill' x ht
    obtain ⟨hxV, hφ⟩ := h.kept x hx hthere hthere'
    exact ⟨hlater.keeps x hxV hlive (hφ.symm ▸ hlive'), (hlater.names x hxV).trans hφ⟩
  fresh x hx := by
    rcases hlater.fresh x hx with hxV | ⟨hnew, hnew'⟩
    · rw [hlater.names x hxV]
      refine (h.fresh x hxV).imp id fun hold => ?_
      exact ⟨fun hs => hold.1 (hstill x hs).1, fun ht => hold.2 (hstill' _ ht).1⟩
    · exact .inr ⟨fun hs => hnew (hstill x hs).2.1, fun ht => hnew' (hstill' _ ht).2.1⟩
  first x hx hs := by
    obtain ⟨hthere, ⟨f, hf⟩, g, hg⟩ := hstill x hs
    have hxV : x ∉ V := fun hxV => by
      rcases h.fresh x hxV with hold | hold
      · exact hx hold.1
      · exact hold.1 hthere
    rw [← h.first x hx hthere, hf, hg, hlater.first x hxV f g hf hg]
  second y hy ht := by
    obtain ⟨hthere, ⟨f, hf⟩, g, hg⟩ := hstill' y ht
    have hyV : y ∉ φ '' V := by
      rintro ⟨x, hxV, rfl⟩
      rcases h.fresh x hxV with ⟨hold, hφ⟩ | hold
      · exact hy (hφ.symm ▸ hold)
      · exact hold.2 hthere
    rw [← h.second y hy hthere, hf, hg, hlater.second y hyV f g hf hg]

end Arena

end Script
