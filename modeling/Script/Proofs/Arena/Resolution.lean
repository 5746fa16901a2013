import Mathlib.Data.Fintype.EquivFin
import Mathlib.Order.WellFounded
import Script.Proofs.Arena.Representation

/-!
# One rule of resolution

Looking a name up and assigning to it walk outwards until a frame binds the name; defining it goes
to the innermost frame. What the walk of one frame meets says what a definition or an assignment
made in another one means for it.

- `Arena.look`: what a name means in a frame.
- `Arena.Acyclic`: no frame lies inside itself. `acyclic_iff_grounded`: this is so exactly if every
  walk ends.
- `Arena.Comes`, `Arena.Meets`: a walk comes to a frame before any other that binds the name, and
  the first frame that binds it.
- `Grounded.look_put`: for which frames a variable set in one frame changes what a name means.
- `resolution_is_one_rule`: looking up, assigning and defining agree, for every frame and name.
-/

namespace Script

namespace Arena

variable {a : Arena} {g p x y z : Handle} {f : Frame} {o : Option Handle} {name m : String}
  {v w : Value} {l : List (Handle × Frame)}

/-! ## Arenas without cycles -/

/-- The frame `x` lies directly inside the one that `p` is meant to name. -/
def Inside (a : Arena) (p x : Handle) : Prop := ∃ f, a.frame? x = some f ∧ f.parent = some p

/-- No frame lies inside itself, however many frames are between. -/
def Acyclic (a : Arena) : Prop := ∀ x, ¬ Relation.TransGen a.Inside x x

/-- There are finitely many frames. -/
instance (a : Arena) : Finite {x // a.Live x} :=
  Finite.of_injective (fun x => (⟨x.1.index, x.2.index_lt⟩ : Fin a.slots.size)) fun x y h =>
    Subtype.ext (x.2.ext y.2 (Fin.mk.inj h))

/-- Without cycles, going outwards comes to an end. -/
theorem Acyclic.wellFounded (h : a.Acyclic) : WellFounded a.Inside := by
  -- among the finitely many frames, outwards is a strict order
  let outer : {x // a.Live x} → {x // a.Live x} → Prop := fun p x => Relation.TransGen a.Inside p x
  have : IsTrans _ outer := ⟨fun _ _ _ => Relation.TransGen.trans⟩
  have : Std.Irrefl outer := ⟨fun x => h x.1⟩
  have houter : WellFounded outer := Finite.wellFounded_of_trans_of_irrefl outer
  have hlive : ∀ x : {x // a.Live x}, Acc a.Inside x.1 := by
    intro x
    induction x using houter.induction with
    | _ x ih =>
      refine .intro _ fun p hp => ?_
      by_cases hlive : a.Live p
      · exact ih ⟨p, hlive⟩ (.single hp)
      · exact .intro _ fun q ⟨f, hf, _⟩ => absurd ⟨f, hf⟩ hlive
  refine ⟨fun x => .intro _ fun p ⟨f, hf, hp⟩ => ?_⟩
  exact (hlive ⟨x, f, hf⟩).inv ⟨f, hf, hp⟩

/-- A walk from inside is longer than one that begins further out. -/
theorem Walk.length_lt (h : a.Walk (some x) l) (hinside : a.Inside p x) :
    ∃ rest, a.Walk (some p) rest ∧ rest.length < l.length := by
  obtain ⟨f, hf, hp⟩ := hinside
  cases h with
  | lost hx => simp [hx] at hf
  | inside hx hrest =>
    obtain rfl := Option.some.inj (hx.symm.trans hf)
    exact ⟨_, hp ▸ hrest, Nat.lt_succ_self _⟩

/-- **An arena has no cycles exactly if every walk in it ends.** -/
theorem acyclic_iff_grounded : a.Acyclic ↔ a.Grounded := by
  constructor
  · intro h x
    induction x using h.wellFounded.induction with
    | _ x ih =>
      cases hx : a.frame? x with
      | none => exact ⟨[], .lost hx⟩
      | some f =>
        cases hp : f.parent with
        | none => exact ⟨[(x, f)], .inside hx (hp ▸ .outermost)⟩
        | some p =>
          obtain ⟨l, hl⟩ := ih p ⟨f, hx, hp⟩
          exact ⟨(x, f) :: l, .inside hx (hp ▸ hl)⟩
  · intro h x hcycle
    -- going outwards, the walks get shorter and shorter
    have hshorter : ∀ y, Relation.TransGen a.Inside y x → ∀ l, a.Walk (some x) l →
        ∃ rest, a.Walk (some y) rest ∧ rest.length < l.length := by
      intro y hy l hl
      induction hy using Relation.TransGen.head_induction_on with
      | single hyx => exact hl.length_lt hyx
      | head hyz _ ih =>
        obtain ⟨rest, hrest, hlt⟩ := ih
        obtain ⟨rest', hrest', hlt'⟩ := hrest.length_lt hyz
        exact ⟨rest', hrest', Nat.lt_trans hlt' hlt⟩
    obtain ⟨l, hl⟩ := h x
    obtain ⟨l', hl', hlt⟩ := hshorter x hcycle l hl
    rw [hl'.unique hl] at hlt
    exact Nat.lt_irrefl _ hlt

theorem Orderly.acyclic (h : a.Orderly) : a.Acyclic := acyclic_iff_grounded.2 h.grounded

/-! ## What a name means in a frame -/

/-- What looking a name up answers where the scope of `g` is the innermost one. -/
def look (a : Arena) (g : Handle) (name : String) : Option Value := (a.enter g).get? name

/-- The walk from `g` comes to `x`, and none of the frames before it binds the name. -/
inductive Comes (a : Arena) (name : String) : Handle → Handle → Prop
  | start (x : Handle) : Comes a name x x
  | outward {x p y : Handle} {f : Frame} :
    a.frame? x = some f → f.binds name = false → f.parent = some p → Comes a name p y →
      Comes a name x y

/-- The first frame binding the name that the walk from `g` meets is `x`. -/
def Meets (a : Arena) (name : String) (g x : Handle) : Prop :=
  a.Comes name g x ∧ ∃ f, a.frame? x = some f ∧ f.binds name = true

/-- A walk that comes to a frame binding the name came there alone. -/
theorem Comes.of_binds (h : a.Comes name x y) (hx : a.frame? x = some f)
    (hbinds : f.binds name = true) : y = x := by
  cases h with
  | start => rfl
  | outward hx' hnot =>
    obtain rfl := Option.some.inj (hx.symm.trans hx')
    rw [hbinds] at hnot
    cases hnot

/-- A walk goes nowhere from a handle that names no frame. -/
theorem Comes.of_not_live (h : a.Comes name x y) (hx : ¬ a.Live x) : y = x := by
  cases h with
  | start => rfl
  | outward hx' => exact absurd ⟨_, hx'⟩ hx

/-- Of two places that a walk comes to, it comes to one from the other. -/
theorem Comes.total (h : a.Comes name g x) (h' : a.Comes name g y) :
    a.Comes name x y ∨ a.Comes name y x := by
  induction h with
  | start => exact .inl h'
  | outward hg hnot hp hrest ih =>
    cases h' with
    | start => exact .inr (.outward hg hnot hp hrest)
    | outward hg' _ hp' hrest' =>
      obtain rfl := Option.some.inj (hg.symm.trans hg')
      obtain rfl := Option.some.inj (hp.symm.trans hp')
      exact ih hrest'

/-- A walk comes to the frame that it meets from everywhere else it comes to. -/
theorem Meets.eq_of_comes (h : a.Meets name g x) (h' : a.Comes name g y)
    (hstays : ∀ z, a.Comes name y z → z = y) : x = y := by
  obtain ⟨hcomes, f, hf, hbinds⟩ := h
  rcases hcomes.total h' with hxy | hyx
  · exact (hxy.of_binds hf hbinds).symm
  · exact hstays x hyx

/-- Only one frame is the first to bind the name. -/
theorem Meets.unique (h : a.Meets name g x) (h' : a.Meets name g y) : x = y :=
  have ⟨hcomes, _, hf, hbinds⟩ := h'
  h.eq_of_comes hcomes fun _ hz => hz.of_binds hf hbinds

/-- The frame found on a walk is the one it meets. -/
theorem Walk.find?_eq_some_iff (h : a.Walk o l) :
    (l.find? fun link => link.2.binds name).map (·.1) = some x ↔
      ∃ g, o = some g ∧ a.Meets name g x := by
  induction h with
  | outermost => simp
  | @lost g hg =>
    refine ⟨fun h => (nomatch h), ?_⟩
    rintro ⟨_, ⟨⟩, hcomes, f, hf, -⟩
    cases hcomes with
    | start => simp [hg] at hf
    | outward hg' => simp [hg] at hg'
  | @inside g f l hg _ ih =>
    cases hb : f.binds name with
    | true =>
      rw [List.find?_cons_of_pos (by exact hb), Option.map_some]
      constructor
      · rintro ⟨⟩
        exact ⟨g, rfl, .start g, f, hg, hb⟩
      · rintro ⟨_, ⟨⟩, hcomes, -⟩
        rw [hcomes.of_binds hg hb]
    | false =>
      rw [List.find?_cons_of_neg (by simp [hb]), ih]
      constructor
      · rintro ⟨p, hp, hcomes, hx⟩
        exact ⟨g, rfl, .outward hg hb hp hcomes, hx⟩
      · rintro ⟨_, ⟨⟩, hcomes, hx⟩
        cases hcomes with
        | start =>
          obtain ⟨f', hf', hb'⟩ := hx
          obtain rfl := Option.some.inj (hg.symm.trans hf')
          rw [hb] at hb'
          cases hb'
        | outward hg' _ hp hrest =>
          obtain rfl := Option.some.inj (hg.symm.trans hg')
          exact ⟨_, hp, hrest, hx⟩

/-- The value found on a walk is the one in the frame found. -/
theorem findSome?_get? (l : List (Handle × Frame)) (name : String) :
    l.findSome? (fun link => link.2.get? name) =
      (l.find? fun link => link.2.binds name).bind fun link => link.2.get? name := by
  induction l with
  | nil => rfl
  | cons link l ih =>
    cases hv : link.2.get? name with
    | none =>
      rw [List.findSome?_cons_of_isNone (by simp [hv]), ih,
        List.find?_cons_of_neg (by simp [Frame.binds, hv])]
    | some v =>
      rw [List.findSome?_cons_of_isSome (by simp [hv]),
        List.find?_cons_of_pos (by simp [Frame.binds, hv])]
      rfl

/-- An assignment goes to the frame that the walk from the innermost scope meets. -/
theorem Grounded.owner?_eq_some_iff (h : a.Grounded) :
    a.owner? name = some x ↔ a.Meets name a.current x := by
  obtain ⟨l, hl⟩ := h a.current
  rw [owner?, chain_eq_of_walk hl, hl.find?_eq_some_iff]
  simp

/-- A chain does not depend on the innermost scope. -/
theorem chainFrom_enter (a : Arena) (g : Handle) (fuel : Nat) (o : Option Handle) :
    (a.enter g).chainFrom fuel o = a.chainFrom fuel o := by
  induction fuel generalizing o with
  | zero => rfl
  | succ fuel ih =>
    cases o with
    | none => rfl
    | some x => cases hx : a.frame? x <;> simp [chainFrom, hx, ih]

/-- Looking a name up from a frame reads the chain from there. -/
theorem look_eq (a : Arena) (g : Handle) (name : String) :
    a.look g name = (a.chain g).findSome? fun link => link.2.get? name := by
  rw [look, get?, chain, chainFrom_enter]
  rfl

/-- **A name means the variable in the frame that the walk meets.** -/
theorem Grounded.look_eq_some_iff (h : a.Grounded) :
    a.look g name = some v ↔
      ∃ x f, a.Meets name g x ∧ a.frame? x = some f ∧ f.get? name = some v := by
  obtain ⟨l, hl⟩ := h g
  have hfind : ∀ x, (l.find? fun link => link.2.binds name).map (·.1) = some x ↔
      a.Meets name g x := fun x => hl.find?_eq_some_iff.trans (by simp)
  rw [look_eq, chain_eq_of_walk hl, findSome?_get?, Option.bind_eq_some_iff]
  constructor
  · rintro ⟨⟨x, f⟩, hx, hv⟩
    exact ⟨x, f, (hfind x).1 (by rw [hx]; rfl), hl.frame? (List.mem_of_find?_eq_some hx), hv⟩
  · rintro ⟨x, f, hmeets, hf, hv⟩
    obtain ⟨⟨y, f'⟩, hy, rfl⟩ := Option.map_eq_some_iff.1 ((hfind x).2 hmeets)
    obtain rfl := Option.some.inj (hf.symm.trans (hl.frame? (List.mem_of_find?_eq_some hy)))
    exact ⟨_, hy, hv⟩

/-- An assignment finds a frame where looking the name up finds a value. -/
theorem isSome_owner?_eq (a : Arena) (name : String) :
    (a.owner? name).isSome = (a.get? name).isSome := by
  rw [owner?, get?, findSome?_get?, Option.isSome_map]
  cases hfind : (a.chain a.current).find? fun link => link.2.binds name with
  | none => rfl
  | some link =>
    exact (List.find?_some (p := fun link : Handle × Frame => link.2.binds name) hfind).symm

/-! ## Setting a variable, seen from every frame -/

/-- After a variable is set, walks meet the same frames. -/
theorem Walk.put (h : a.Walk o l) (x : Handle) (name : String) (v : Value) :
    (a.put x name v).Walk o (l.map fun link =>
      (link.1, if link.1 = x then link.2.put name v else link.2)) := by
  induction h with
  | outermost => exact .outermost
  | @lost y hy =>
    refine .lost ?_
    rw [frame?_put]
    by_cases hyx : y = x
    · subst hyx
      rw [if_pos rfl, hy, Option.map_none]
    · rw [if_neg hyx, hy]
  | @inside y f l hy _ ih =>
    rw [List.map_cons]
    refine .inside ?_ ?_
    · rw [frame?_put]
      by_cases hyx : y = x
      · subst hyx
        simp [hy]
      · simp [hyx, hy]
    · by_cases hyx : y = x
      · simpa [hyx] using ih
      · simpa [hyx] using ih

/-- No other name changes its meaning. -/
theorem Grounded.look_put_of_ne (h : a.Grounded) (hne : m ≠ name) :
    (a.put x name v).look g m = a.look g m := by
  obtain ⟨l, hl⟩ := h g
  rw [look_eq, look_eq, chain_eq_of_walk hl, chain_eq_of_walk (hl.put x name v),
    List.findSome?_map]
  refine congrArg (fun view => l.findSome? view) (funext fun link => ?_)
  by_cases hx : link.1 = x
  · simp [hx, Frame.get?_put_of_ne hne]
  · simp [hx]

/-- From where the walk comes to the frame, the name means the value set. -/
theorem Grounded.look_put_of_comes (h : a.Grounded) (hlive : a.Live x)
    (hcomes : a.Comes name g x) : (a.put x name v).look g name = some v := by
  rw [(h.put x name v).look_eq_some_iff]
  obtain ⟨f, hf⟩ := hlive
  have hset : (a.put x name v).frame? x = some (f.put name v) := by simp [frame?_put, hf]
  refine ⟨x, f.put name v, ⟨?_, _, hset, by simp [Frame.binds]⟩, hset, by simp⟩
  induction hcomes with
  | start => exact .start _
  | @outward y p x g hy hnot hp _ ih =>
    by_cases hyx : y = x
    · subst hyx
      exact .start _
    · exact .outward (by rwa [frame?_put, if_neg hyx]) hnot hp (ih hf hset)

/-- From anywhere else, the name means what it did. -/
theorem Grounded.look_put_of_not_comes (h : a.Grounded) (hnot : ¬ a.Comes name g x) :
    (a.put x name v).look g name = a.look g name := by
  obtain ⟨l, hl⟩ := h g
  rw [look_eq, look_eq, chain_eq_of_walk hl, chain_eq_of_walk (hl.put x name v),
    List.findSome?_map]
  -- the walk meets a frame that binds the name before it could meet `x`
  suffices ∀ o l, a.Walk o l → (∀ g, o = some g → ¬ a.Comes name g x) →
      l.findSome? ((fun link => link.2.get? name) ∘ fun link : Handle × Frame =>
        (link.1, if link.1 = x then link.2.put name v else link.2)) =
      l.findSome? fun link => link.2.get? name from
    this _ l hl fun _ heq => Option.some.inj heq ▸ hnot
  intro o l hl hnot
  induction hl with
  | outermost => rfl
  | lost => rfl
  | @inside y f l hy _ ih =>
    have hyx : y ≠ x := fun heq => hnot y rfl (heq ▸ .start _)
    cases hv : f.get? name with
    | some w => simp [hyx, hv]
    | none =>
      have hb : f.binds name = false := by simp [Frame.binds, hv]
      rw [List.findSome?_cons_of_isNone (by simp [hyx, hv]),
        List.findSome?_cons_of_isNone (by simp [hv])]
      refine ih fun p hp hcomes => ?_
      exact hnot y rfl (.outward hy hb hp hcomes)

/-- From `a` to `b`, the name has come to mean `v` in the frames that see the change. In every other
frame it means what it did, and so does every other name in every frame. -/
def Reveals (a b : Arena) (name : String) (v : Value) (sees : Handle → Prop) : Prop :=
  ∀ g m, (m = name ∧ sees g → b.look g m = some v) ∧
    (¬ (m = name ∧ sees g) → b.look g m = a.look g m)

/-- **A variable set in a frame is seen where the walk comes to that frame.** -/
theorem Grounded.reveals_put (h : a.Grounded) (hlive : a.Live x) (name : String) (v : Value) :
    a.Reveals (a.put x name v) name v fun g => a.Comes name g x := by
  intro g m
  constructor
  · rintro ⟨rfl, hcomes⟩
    exact h.look_put_of_comes hlive hcomes
  · intro hnot
    by_cases hm : m = name
    · subst hm
      exact h.look_put_of_not_comes fun hcomes => hnot ⟨rfl, hcomes⟩
    · exact h.look_put_of_ne hm

/-! ## Looking up, assigning and defining -/

/-- When a definition is refused, and why. -/
theorem define_eq_some_iff (a : Arena) (name : String) (v : Value) (fault : Fault) :
    (a.define name v).2 = some fault ↔
      fault = .undefined name ∧ ¬ a.Live a.current ∨
      fault = .redefined name ∧ a.policy = .strict ∧
        ∃ f, a.frame? a.current = some f ∧ f.binds name = true := by
  unfold define Live
  cases hf : a.frame? a.current with
  | none => simp [@eq_comm _ fault]
  | some f =>
    cases hp : a.policy with
    | permissive => simp
    | strict => cases hb : f.binds name <;> simp [hb, @eq_comm _ fault]

/-- An assignment is accepted where the name has a value. -/
theorem assign_eq_none_iff (a : Arena) (name : String) (v : Value) :
    (a.assign name v).2 = none ↔ (a.get? name).isSome = true := by
  rw [← isSome_owner?_eq, assign]
  cases a.owner? name <;> simp

/-- An accepted assignment is seen where the walk meets the frame that the walk from the innermost
scope meets. -/
theorem Grounded.reveals_assign (h : a.Grounded) (hok : (a.assign name v).2 = none) :
    a.Reveals (a.assign name v).1 name v fun g =>
      ∃ x, a.Meets name g x ∧ a.Meets name a.current x := by
  rw [assign_eq_none_iff, ← isSome_owner?_eq, Option.isSome_iff_exists] at hok
  obtain ⟨x, hx⟩ := hok
  have hmeets := h.owner?_eq_some_iff.1 hx
  obtain ⟨f, hf, hbinds⟩ := hmeets.2
  -- the frame binds the name already, so a walk that comes there meets it
  have hsees : ∀ g, (∃ y, a.Meets name g y ∧ a.Meets name a.current y) ↔ a.Comes name g x := by
    refine fun g => ⟨?_, fun hcomes => ⟨x, ⟨hcomes, f, hf, hbinds⟩, hmeets⟩⟩
    rintro ⟨y, hy, hcurrent⟩
    exact hmeets.unique hcurrent ▸ hy.1
  have hassign : (a.assign name v).1 = a.put x name v := by simp [assign, hx]
  rw [hassign, funext fun g => propext (hsees g)]
  exact h.reveals_put ⟨f, hf⟩ name v

/-- An accepted definition is seen where the walk comes to the innermost scope. -/
theorem Grounded.reveals_define (h : a.Grounded) (hok : (a.define name v).2 = none) :
    a.Reveals (a.define name v).1 name v fun g => a.Comes name g a.current := by
  rcases define_cases a name v with ⟨fault, hd⟩ | ⟨hlive, hd⟩
  · rw [hd] at hok
    cases hok
  · rw [hd]
    exact h.reveals_put hlive name v

/-- Where a chain breaks off before the name is bound, the name has no value and cannot be assigned
to. -/
theorem Grounded.broken (h : a.Grounded) (hcomes : a.Comes name g x) (hx : ¬ a.Live x) :
    a.look g name = none ∧
      ∀ v, (a.enter g).assign name v = (a.enter g, some (.undefined name)) := by
  have hnone : a.look g name = none := by
    refine Option.eq_none_iff_forall_ne_some.2 fun v hv => ?_
    obtain ⟨y, f, hmeets, hf, -⟩ := h.look_eq_some_iff.1 hv
    obtain rfl := hmeets.eq_of_comes hcomes fun z hz => hz.of_not_live hx
    exact hx ⟨f, hf⟩
  refine ⟨hnone, fun v => ?_⟩
  have howner : (a.enter g).owner? name = none := by
    rw [← Option.isSome_eq_false_iff.trans Option.isNone_iff_eq_none, isSome_owner?_eq]
    exact Option.isSome_eq_false_iff.2 (Option.isNone_iff_eq_none.2 hnone)
  simp only [assign, howner]

/-- **Looking up, assigning and defining follow one rule.** In an arena without cycles, for every
frame `g` and every name: a name means the variable in the first frame binding it that the walk from
`g` meets. An accepted assignment is seen exactly where this is the frame that the walk from the
innermost scope meets, and an accepted definition exactly where the walk comes to the innermost
scope before any other frame that binds the name. An assignment is accepted exactly where the name
has a value. A definition is refused only under the strict policy if the innermost scope binds the
name, or if the innermost scope was freed. What is refused changes nothing, and looking up never
does. A chain that breaks off ends both walks. -/
theorem resolution_is_one_rule (hacyclic : a.Acyclic) (name : String) (v : Value) :
    (∀ g m w, a.look g m = some w ↔
      ∃ x f, a.Meets m g x ∧ a.frame? x = some f ∧ f.get? m = some w) ∧
    ((a.assign name v).2 = none → a.Reveals (a.assign name v).1 name v fun g =>
      ∃ x, a.Meets name g x ∧ a.Meets name a.current x) ∧
    ((a.define name v).2 = none → a.Reveals (a.define name v).1 name v fun g =>
      a.Comes name g a.current) ∧
    ((a.assign name v).2 = none ↔ (a.get? name).isSome = true) ∧
    (∀ fault, (a.define name v).2 = some fault ↔
      fault = .undefined name ∧ ¬ a.Live a.current ∨
      fault = .redefined name ∧ a.policy = .strict ∧
        ∃ f, a.frame? a.current = some f ∧ f.binds name = true) ∧
    (∀ fault, (a.define name v).2 = some fault → (a.define name v).1 = a) ∧
    (∀ fault, (a.assign name v).2 = some fault → (a.assign name v).1 = a) ∧
    (∀ c : Client, c.arena = a → (c.perform (.get name)).arena = a) ∧
    (∀ g x, a.Comes name g x → ¬ a.Live x → a.look g name = none ∧
      (a.enter g).assign name v = (a.enter g, some (.undefined name))) := by
  have h := acyclic_iff_grounded.1 hacyclic
  refine ⟨fun _ _ _ => h.look_eq_some_iff, h.reveals_assign, h.reveals_define,
    assign_eq_none_iff a name v, define_eq_some_iff a name v, ?defined, ?assigned, ?read,
    fun g x hcomes hx => (h.broken hcomes hx).imp id fun hassign => hassign v⟩
  case defined =>
    intro fault hfault
    rcases define_cases a name v with ⟨_, hd⟩ | ⟨-, hd⟩
    · rw [hd]
    · rw [hd] at hfault
      cases hfault
  case assigned =>
    intro fault hfault
    rcases assign_cases a name v with ⟨_, hd⟩ | ⟨_, -, hd⟩
    · rw [hd]
    · rw [hd] at hfault
      cases hfault
  case read =>
    rintro c rfl
    rw [Client.perform]
    cases c.arena.get? name <;> rfl

/-- The top-level scope binds `x`, and so does the first of two scopes inside it. The innermost
scope lies in the first. One more scope lies inside a frame that was freed. -/
def relatedScopes : List Client.Event :=
  [.operation (.define "x" (.constant .nil)), .operation (.push 0), .operation (.push 0),
    .operation (.push 1), .operation (.push 0), .operation (.push 4), .operation (.release 4),
    .operation (.enter 1), .operation (.define "x" (.constant (.bool true))),
    .operation (.enter 3)]

theorem resolution_relatedScopes :
    let a := (Client.history .strict 0 relatedScopes).arena
    a.Acyclic ∧ (a.assign "x" .nil).2 = none ∧ a.current = ⟨3, 0⟩ ∧
      (a.assign "x" .nil).1.look ⟨1, 0⟩ "x" = some .nil ∧
      (a.enter ⟨5, 0⟩).assign "x" .nil = (a.enter ⟨5, 0⟩, some (.undefined "x")) := by
  intro a
  have hfrees : ∀ i, (Client.new .strict 0).frees i relatedScopes < UInt32.size := fun i =>
    Nat.lt_of_le_of_lt (Client.frees_le_length ..) (by decide)
  have hforeign : ∀ fn, .receive fn ∈ relatedScopes → fn.identity < 0 := by
    intro fn hfn
    simp [relatedScopes] at hfn
  have hacyclic : a.Acyclic :=
    (Client.inOrder_history .strict hforeign (Client.counts_new hfrees)).arena.acyclic
  obtain ⟨-, hassign, -, -, -, -, -, -, hbroken⟩ := resolution_is_one_rule hacyclic "x" .nil
  have hok : (a.assign "x" .nil).2 = none := by decide +kernel
  -- the first scope binds the name, and the innermost one leads to it
  have hfirst : a.Meets "x" ⟨1, 0⟩ ⟨1, 0⟩ := ⟨.start _, _, rfl, rfl⟩
  have hinnermost : a.Meets "x" a.current ⟨1, 0⟩ :=
    ⟨.outward (f := .empty ⟨1, 0⟩) rfl rfl rfl (.start _), hfirst.2⟩
  refine ⟨hacyclic, hok, rfl, ?_, ?_⟩
  · exact (hassign hok ⟨1, 0⟩ "x").1 ⟨rfl, _, hfirst, hinnermost⟩
  · refine (hbroken ⟨5, 0⟩ ⟨4, 0⟩ ?_ ?_).2
    · exact .outward (f := .empty ⟨4, 0⟩) rfl rfl rfl (.start _)
    · exact not_live_iff.2 rfl

end Arena

end Script
