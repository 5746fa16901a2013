import Script.Proofs.Arena.Collection
import Script.Proofs.Arena.Variables

/-!
# Arenas in use

A client uses an arena through handles it was issued, in any order and also after their frames were
freed, and holds functions made in the arena. Whatever it has done, the arena knows every function
in use, and so finds the ones held outside by counting.

- `Client`, `Client.Operation`, `Client.run`: a client, what it can do, and what it has after doing
  it.
- `Client.Accounted`: every function bound or held is known, and functions have numbers of their
  own. `accounted_perform` keeps it in one step, `accounted_run` in all.
- `Arena.Needed`: what has to outlive a collection; `reaches_roots_iff` says that this is what can
  be reached from the roots found by counting.
-/

namespace Script

/-! ## Clients -/

/-- What a client of an arena has in hands. -/
structure Client where
  arena : Arena
  /-- The handles issued so far, the first of them that of the top-level frame. -/
  issued : List Handle
  /-- The functions held, one entry for each holder. -/
  held : List Closure

namespace Client

/-- A value that a client can pass to an arena: a constant, or one of the functions it holds. -/
inductive Argument
  | constant (value : Literal)
  | function (index : Nat)

/-- What a client can do. Handles and functions are named by their place among those it has. -/
inductive Operation
  | push (parent : Nat)
  | enter (frame : Nat)
  | release (frame : Nat)
  | closure (decl : FunDecl)
  | clone (function : Nat)
  | drop (function : Nat)
  | define (name : String) (value : Argument)
  | assign (name : String) (value : Argument)
  | get (name : String)
  | collect

/-- The value that an argument stands for. -/
def value? (c : Client) : Argument → Option Value
  | .constant value => some (.ofLiteral value)
  | .function i => (c.held[i]?).map .function

/-- The client after an operation. One that names what the client does not have does nothing. -/
def perform (c : Client) : Operation → Client
  | .push i =>
    match c.issued[i]? with
    | some p => ⟨(c.arena.push p).1, c.issued ++ [(c.arena.push p).2], c.held⟩
    | none => c
  | .enter i =>
    match c.issued[i]? with
    | some x => { c with arena := c.arena.enter x }
    | none => c
  | .release i =>
    match c.issued[i]? with
    | some x => { c with arena := c.arena.release x c.held }
    | none => c
  | .closure decl => ⟨(c.arena.closure decl).1, c.issued, c.held ++ [(c.arena.closure decl).2]⟩
  | .clone i => { c with held := c.held ++ (c.held[i]?).toList }
  | .drop i => { c with held := c.held.eraseIdx i }
  | .define name arg =>
    match c.value? arg with
    | some v => { c with arena := (c.arena.define name v).1 }
    | none => c
  | .assign name arg =>
    match c.value? arg with
    | some v => { c with arena := (c.arena.assign name v).1 }
    | none => c
  | .get name =>
    match c.arena.get? name with
    | some v => { c with held := c.held ++ v.functions }
    | none => c
  | .collect => { c with arena := c.arena.collect c.held }

/-- A client of a new arena. -/
def new (policy : Policy) (firstFunction : Nat) : Client :=
  ⟨.new policy firstFunction, [Arena.global], []⟩

/-- What a client has after some operations on a new arena. -/
def run (policy : Policy) (firstFunction : Nat) (ops : List Operation) : Client :=
  ops.foldl perform (new policy firstFunction)

end Client

namespace Arena

variable {a b : Arena} {held outside : List Closure} {x y : Handle} {f : Frame} {fn : Closure}

/-! ## What a collection has to keep -/

/-- What has to outlive a collection: the scopes in use, what held functions captured, and from
there on along parents and captured scopes. -/
inductive Needed (a : Arena) (held : List Closure) : Handle → Prop
  | global : Needed a held global
  | current : Needed a held a.current
  | active {x : Handle} : x ∈ a.active → Needed a held x
  | held {fn : Closure} : fn ∈ held → Needed a held fn.captured
  | parent {x p : Handle} {f : Frame} :
    Needed a held x → a.frame? x = some f → f.parent = some p → Needed a held p
  | captured {x : Handle} {f : Frame} {fn : Closure} :
    Needed a held x → a.frame? x = some f → fn ∈ f.functions → Needed a held fn.captured

theorem Needed.of_link (h : a.Needed held x) (hf : a.frame? x = some f) (hy : y ∈ f.links) :
    a.Needed held y := by
  rcases List.mem_append.1 hy with hy | hy
  · exact .parent h hf (Option.mem_toList.1 hy)
  · obtain ⟨fn, hfn, rfl⟩ := List.mem_map.1 hy
    exact .captured h hf hfn

/-- If every held function is known and functions have numbers of their own, the roots found by
counting lead to what is needed. -/
theorem reaches_roots_iff (hknown : ∀ fn ∈ held, fn ∈ a.known)
    (hdistinct : ∀ f ∈ a.known, ∀ g ∈ a.known, f.identity = g.identity → f = g) :
    a.Reaches (a.roots held) x ↔ a.Needed held x := by
  constructor
  · intro h
    induction h with
    | @start x hx =>
      rcases mem_roots_iff.1 hx with rfl | rfl | hx | ⟨fn, hfn, ⟨g, hg, hid⟩, rfl⟩
      · exact .global
      · exact .current
      · exact .active hx
      -- the holder may have another copy of the function, with the same number
      · obtain rfl := hdistinct g (hknown g hg) fn hfn hid
        exact .held hg
    | link _ hf hy ih => exact ih.of_link hf hy
  · intro h
    induction h with
    | global => exact .start (mem_roots_iff.2 (.inl rfl))
    | current => exact .start (mem_roots_iff.2 (.inr (.inl rfl)))
    | active hx => exact .start (mem_roots_iff.2 (.inr (.inr (.inl hx))))
    | @held fn hfn =>
      refine .start (mem_roots_iff.2 (.inr (.inr (.inr ?_))))
      exact ⟨fn, hknown fn hfn, ⟨fn, hfn, rfl⟩, rfl⟩
    | parent _ hf hp ih => exact .link ih hf (Frame.parent_mem_links hp)
    | captured _ hf hfn ih => exact .link ih hf (Frame.captured_mem_links hfn)

end Arena

/-! ## Every function is accounted for -/

namespace Client

variable {c : Client} {fn : Closure}

/-- Every function that a frame binds or the client holds is known to the arena, and the number of
a known function is its own. -/
structure Accounted (c : Client) : Prop where
  tidy : c.arena.Tidy
  reclaims : c.arena.reclaims = true
  known : ∀ fn, c.arena.Binds fn ∨ fn ∈ c.held → fn ∈ c.arena.known
  distinct : ∀ f ∈ c.arena.known, ∀ g ∈ c.arena.known, f.identity = g.identity → f = g
  numbered : ∀ f ∈ c.arena.known, f.identity < c.arena.nextFunction

theorem accounted_new (policy : Policy) (n : Nat) : (new policy n).Accounted where
  tidy := Arena.tidy_new policy n
  reclaims := rfl
  known := by
    rintro fn (⟨x, f, hf, hfn⟩ | hfn)
    · rw [new, Arena.frame?_new] at hf
      split at hf
      · obtain rfl := Option.some.inj hf
        cases hfn
      · cases hf
    · cases hfn
  distinct := fun f hf => nomatch hf
  numbered := fun f hf => nomatch hf

/-- Nothing has to be shown about functions that stay known while no other becomes bound or held. -/
theorem Accounted.of_known_eq (h : c.Accounted) {c' : Client} (htidy : c'.arena.Tidy)
    (hreclaims : c'.arena.reclaims = c.arena.reclaims)
    (hknown : c'.arena.known = c.arena.known)
    (hnext : c'.arena.nextFunction = c.arena.nextFunction)
    (hholders : ∀ fn, c'.arena.Binds fn ∨ fn ∈ c'.held → c.arena.Binds fn ∨ fn ∈ c.held) :
    c'.Accounted where
  tidy := htidy
  reclaims := hreclaims.trans h.reclaims
  known fn hfn := hknown ▸ h.known fn (hholders fn hfn)
  distinct := hknown ▸ h.distinct
  numbered := by rw [hknown, hnext]; exact h.numbered

/-- The functions of an argument are held. -/
theorem mem_held_of_value? {arg : Argument} {v : Value} (h : c.value? arg = some v)
    (hfn : fn ∈ v.functions) : fn ∈ c.held := by
  cases arg with
  | constant value =>
    obtain rfl := Option.some.inj h
    cases value <;> cases hfn
  | function i =>
    obtain ⟨g, hg, rfl⟩ := Option.map_eq_some_iff.1 h
    obtain rfl := List.mem_singleton.1 hfn
    exact List.mem_of_getElem? hg

/-- Setting a variable to a value whose functions are held accounts for all functions. -/
theorem Accounted.put (h : c.Accounted) {v : Value} (hv : ∀ fn ∈ v.functions, fn ∈ c.held)
    (x : Handle) (name : String) :
    Accounted { c with arena := c.arena.put x name v } := by
  refine h.of_known_eq (h.tidy.put x name v) rfl rfl rfl fun fn hfn => ?_
  rcases hfn with hfn | hfn
  · exact (Arena.binds_put hfn).imp id (hv fn)
  · exact .inr hfn

/-- A collection forgets only functions that nothing holds. -/
theorem Accounted.collect (h : c.Accounted) :
    Accounted { c with arena := c.arena.collect c.held } where
  tidy := h.tidy.collect c.held
  reclaims := (Arena.reclaims_collect ..).trans h.reclaims
  known fn hfn := by
    have hholder : c.arena.Binds fn ∨ fn ∈ c.held :=
      hfn.imp (Arena.within_collect c.arena c.held).binds id
    rw [Arena.known_collect, Arena.mem_known_forget_iff]
    exact ⟨h.known fn hholder, fn, hholder, rfl⟩
  distinct f hf g hg := by
    rw [Arena.known_collect, Arena.mem_known_forget_iff] at hf hg
    exact h.distinct f hf.1 g hg.1
  numbered f hf := by
    rw [Arena.known_collect, Arena.mem_known_forget_iff] at hf
    rw [Arena.nextFunction_collect]
    exact h.numbered f hf.1

theorem Accounted.release (h : c.Accounted) (x : Handle) :
    Accounted { c with arena := c.arena.release x c.held } := by
  have hretire : Accounted { c with arena := c.arena.retire x } := by
    refine h.of_known_eq (h.tidy.retire x) ?_ ?_ ?_ fun fn hfn =>
      hfn.imp (Arena.within_retire c.arena x).binds id
    · exact Arena.reclaims_retire ..
    · exact Arena.known_retire ..
    · exact Arena.nextFunction_retire ..
  rcases Arena.release_cases c.arena x c.held with hx | hx
  · rw [hx]
    exact hretire
  · rw [hx]
    exact hretire.collect

/-- The new function is known and numbered after all others. -/
theorem Accounted.closure (h : c.Accounted) (decl : FunDecl) :
    Accounted ⟨(c.arena.closure decl).1, c.issued, c.held ++ [(c.arena.closure decl).2]⟩ where
  tidy := h.tidy.closure decl
  reclaims := (Arena.reclaims_closure ..).trans h.reclaims
  known fn hfn := by
    rw [Arena.known_closure, List.mem_cons]
    rcases hfn with hfn | hfn
    · exact .inr (h.known fn (.inl (Arena.binds_closure hfn)))
    · rcases List.mem_append.1 hfn with hfn | hfn
      · exact .inr (h.known fn (.inr hfn))
      · exact .inl (List.mem_singleton.1 hfn)
  distinct f hf g hg hid := by
    rw [Arena.known_closure, List.mem_cons] at hf hg
    -- the number of the new function is larger than those of the others
    rcases hf with rfl | hf <;> rcases hg with rfl | hg
    · rfl
    · exact absurd hid (Nat.ne_of_gt (h.numbered g hg))
    · exact absurd hid (Nat.ne_of_lt (h.numbered f hf))
    · exact h.distinct f hf g hg hid
  numbered f hf := by
    rw [Arena.known_closure, List.mem_cons] at hf
    rw [Arena.nextFunction_closure]
    rcases hf with rfl | hf
    · exact Nat.lt_succ_self _
    · exact Nat.lt_succ_of_lt (h.numbered f hf)

/-- One operation accounts for all functions. -/
theorem accounted_perform (h : c.Accounted) (op : Operation) : (c.perform op).Accounted := by
  cases op with
  | push i =>
    simp only [perform]
    split
    · rename_i p hp
      refine h.of_known_eq (h.tidy.push p) ?_ ?_ ?_ fun fn hfn =>
        hfn.imp (h.tidy.binds_push p) id
      · exact Arena.reclaims_push ..
      · exact Arena.known_push ..
      · exact Arena.nextFunction_push ..
    · exact h
  | enter i =>
    simp only [perform]
    split
    · exact h.of_known_eq (h.tidy.congr rfl rfl) rfl rfl rfl fun fn hfn => hfn
    · exact h
  | release i =>
    simp only [perform]
    split
    · exact h.release _
    · exact h
  | closure decl => exact h.closure decl
  | clone i =>
    refine h.of_known_eq h.tidy rfl rfl rfl fun fn hfn => hfn.imp id fun hfn => ?_
    rcases List.mem_append.1 hfn with hfn | hfn
    · exact hfn
    · exact List.mem_of_getElem? (Option.mem_toList.1 hfn)
  | drop i =>
    exact h.of_known_eq h.tidy rfl rfl rfl fun fn hfn => hfn.imp id (List.mem_of_mem_eraseIdx)
  | define name arg =>
    simp only [perform]
    split
    · rename_i v hv
      rcases Arena.define_cases c.arena name v with ⟨fault, hd⟩ | ⟨-, hd⟩
      · rw [hd]
        exact h
      · rw [hd]
        exact h.put (fun fn => mem_held_of_value? hv) _ name
    · exact h
  | assign name arg =>
    simp only [perform]
    split
    · rename_i v hv
      rcases Arena.assign_cases c.arena name v with ⟨fault, hd⟩ | ⟨x, -, hd⟩
      · rw [hd]
        exact h
      · rw [hd]
        exact h.put (fun fn => mem_held_of_value? hv) _ name
    · exact h
  | get name =>
    simp only [perform]
    split
    · rename_i v hv
      refine h.of_known_eq h.tidy rfl rfl rfl fun fn hfn => ?_
      rcases hfn with hfn | hfn
      · exact .inl hfn
      · rcases List.mem_append.1 hfn with hfn | hfn
        · exact .inr hfn
        · exact .inl (Arena.binds_of_get? hv hfn)
    · exact h
  | collect => exact h.collect

/-- However a client uses an arena, all functions are accounted for. -/
theorem accounted_run (policy : Policy) (n : Nat) (ops : List Operation) :
    (run policy n ops).Accounted := by
  suffices ∀ c : Client, c.Accounted → (ops.foldl perform c).Accounted from
    this _ (accounted_new policy n)
  induction ops with
  | nil => exact fun c h => h
  | cons op ops ih => exact fun c h => ih _ (accounted_perform h op)

end Client

end Script
