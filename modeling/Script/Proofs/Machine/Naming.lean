import Mathlib.Data.Set.Insert
import Script.Proofs.Machine.Soundness

/-!
# Which names a frame binds

A step adds names to a frame only if it declares something, and only to the innermost one. No step
takes a name away: an assignment gives a variable that is there another value.

- `Frame.names`: the names that a frame binds.
- `Arena.Grows`: frames that are left bind what they bound, and only some of them more. One lemma
  for each operation.
- `grows_step`: what one step does to the names; `names_after`: what a run does.
-/

namespace Script

/-! ## Names -/

namespace Frame

/-- The names that a frame binds. -/
def names (f : Frame) : Set String := {name | f.binds name = true}

theorem names_put (f : Frame) (name : String) (v : Value) :
    (f.put name v).names = insert name f.names := by
  ext other
  by_cases h : other = name
  · subst h
    simp [names, binds]
  · simp [names, binds, get?_put_of_ne h, h]

theorem names_pin (f : Frame) : f.pin.names = f.names := rfl

end Frame

namespace Arena

variable {a b c : Arena} {x y p : Handle} {f g : Frame} {name : String} {v : Value}
  {grown : Handle → Prop}

/-- Frames that are both in `a` and in `b` bind in `b` what they bound in `a`, and nothing else
except for those that may have `grown`. -/
def Grows (a b : Arena) (grown : Handle → Prop) : Prop :=
  ∀ x f g, a.frame? x = some f → b.frame? x = some g →
    f.names ⊆ g.names ∧ (¬ grown x → g.names = f.names)

/-- Frames that are not touched bind what they bound. -/
theorem grows_of_frames (h : ∀ x f g, a.frame? x = some f → b.frame? x = some g → g = f) :
    a.Grows b grown := by
  intro x f g hf hg
  rw [h x f g hf hg]
  exact ⟨subset_rfl, fun _ => rfl⟩

theorem Grows.refl (a : Arena) (grown : Handle → Prop) : a.Grows a grown :=
  grows_of_frames fun _ _ _ hf hg => Option.some.inj (hg.symm.trans hf)

/-- Frames that are freed leave the others as they are. -/
theorem Within.grows (h : b.Within a) (grown : Handle → Prop) : a.Grows b grown :=
  grows_of_frames fun x _ g hf hg => Option.some.inj ((h x g hg).symm.trans hf)

theorem grows_put (a : Arena) (y : Handle) (name : String) (v : Value) :
    a.Grows (a.put y name v) fun x => x = y := by
  intro x f g hf hg
  rw [frame?_put] at hg
  by_cases hx : x = y
  · subst hx
    rw [if_pos rfl, hf] at hg
    obtain rfl := Option.some.inj hg
    rw [Frame.names_put]
    exact ⟨Set.subset_insert _ _, fun hnot => absurd rfl hnot⟩
  · rw [if_neg hx, hf] at hg
    obtain rfl := Option.some.inj hg
    exact ⟨subset_rfl, fun _ => rfl⟩

/-- A definition adds a name to the innermost frame only. -/
theorem grows_define (a : Arena) (name : String) (v : Value) :
    a.Grows (a.define name v).1 fun x => x = a.current := by
  rcases define_cases a name v with ⟨fault, hd⟩ | ⟨-, hd⟩
  · rw [hd]
    exact Grows.refl a _
  · rw [hd]
    exact grows_put a a.current name v

theorem Tidy.define (h : a.Tidy) (name : String) (v : Value) : (a.define name v).1.Tidy := by
  rcases define_cases a name v with ⟨fault, hd⟩ | ⟨-, hd⟩
  · rw [hd]
    exact h
  · rw [hd]
    exact h.put _ name v

/-- An assignment adds no name to any frame: the one assigned to binds the name already. -/
theorem grows_put_of_owner (howner : a.owner? name = some y) (v : Value) (grown : Handle → Prop) :
    a.Grows (a.put y name v) grown := by
  intro x f g hf hg
  obtain ⟨h, hh, hbinds⟩ := exists_frame_of_owner? howner
  have hgrows := grows_put a y name v x f g hf hg
  refine ⟨hgrows.1, fun _ => ?_⟩
  by_cases hx : x = y
  · subst hx
    obtain rfl := Option.some.inj (hf.symm.trans hh)
    obtain rfl : f.put name v = g := by simpa [frame?_put, hf] using hg
    rw [Frame.names_put]
    exact Set.insert_eq_of_mem hbinds
  · exact hgrows.2 hx

/-- A function that is made adds no name. -/
theorem names_closure {decl : FunDecl} (hf : a.frame? x = some f)
    (hg : (a.closure decl).1.frame? x = some g) : g.names = f.names := by
  have hsame : ((a.closure decl).1.frame? x).map Frame.names = (a.frame? x).map Frame.names :=
    map_frame?_closure Frame.names Frame.names_pin x
  rw [hf, hg] at hsame
  exact Option.some.inj hsame

/-- A function that is made and given a name adds the name to the innermost frame only. -/
theorem grows_make (a : Arena) (decl : FunDecl) (name : String) (v : Value) :
    a.Grows ((a.closure decl).1.define name v).1 fun x => x = a.current := by
  intro x f g hf hg
  obtain ⟨h, hh⟩ := live_closure_iff.2 ⟨f, hf⟩
  have hgrows := grows_define (a.closure decl).1 name v x h g hh hg
  rw [names_closure hf hh, current_closure] at hgrows
  exact hgrows

/-- Parameters are bound in the innermost frame only. -/
theorem frame?_bindParams_of_ne (hx : x ≠ a.current) (params : List Param) (args : List Value) :
    (Configuration.bindParams a params args).1.frame? x = a.frame? x := by
  refine (bindParams_induction
    (P := fun b => b.current = a.current ∧ b.frame? x = a.frame? x) params
    (fun b name v _ hb => ?_) ⟨rfl, rfl⟩).2
  refine ⟨(current_define b name v).trans hb.1, ?_⟩
  rcases define_cases b name v with ⟨fault, hd⟩ | ⟨-, hd⟩
  · rw [hd]
    exact hb.2
  · rw [hd, frame?_put, if_neg (hb.1 ▸ hx)]
    exact hb.2

/-- A scope that is entered binds its parameters in a frame of its own. -/
theorem Tidy.grows_enter (h : a.Tidy) (p : Handle) (params : List Param) (args : List Value)
    (grown : Handle → Prop) :
    a.Grows (Configuration.bindParams ((a.push p).1.enter (a.push p).2) params args).1 grown := by
  refine grows_of_frames fun x f g hf hg => ?_
  have hx : x ≠ (a.push p).2 := by
    rintro rfl
    rw [h.frame?_pushed] at hf
    cases hf
  rw [frame?_bindParams_of_ne hx, frame?_enter, h.frame?_push_of_live p hf] at hg
  exact (Option.some.inj hg).symm

theorem grows_leaveFrame (a : Arena) (frame caller : Handle) (outside : List Closure)
    (grown : Handle → Prop) :
    a.Grows (Configuration.leaveFrame a frame caller outside) grown := by
  have hwithin : (Configuration.leaveFrame a frame caller outside).Within (a.enter caller) :=
    within_release (a.enter caller) frame outside
  exact hwithin.grows grown

end Arena

/-! ## What a step does to names -/

namespace Configuration

variable {c : Configuration}

/-- **A step adds names only where it declares them**, in the innermost frame, and takes none
away. -/
theorem grows_step (htidy : c.session.arena.Tidy) :
    c.session.arena.Grows c.step.session.arena fun x =>
      c.declares = true ∧ x = c.session.arena.current := by
  cases (effect_step c).change with
  | none arena => exact arena ▸ .refl _ _
  | put x name v arena value depth scopes holds target =>
    rw [arena]
    rcases target with howner | ⟨hdeclares, rfl⟩
    · exact Arena.grows_put_of_owner howner v _
    · simpa only [hdeclares, true_and] using Arena.grows_put c.session.arena _ name v
  | make decl arena depth scopes holds declared =>
    have hdeclares : c.declares = true := by rw [declares, declared]
    rw [arena]
    simpa only [hdeclares, true_and] using Arena.grows_make c.session.arena decl decl.name _
  | enter parent params args calls within arena =>
    rw [arena]
    exact htidy.grows_enter parent params args _
  | leave frame caller calls outside arena =>
    rw [arena]
    exact Arena.grows_leaveFrame c.session.arena frame caller outside _

/-! ## Along a run -/

/-- Every step keeps an arena tidy. -/
theorem tidy_step (htidy : c.session.arena.Tidy) : c.step.session.arena.Tidy := by
  cases (effect_step c).change with
  | none arena => exact arena ▸ htidy
  | put x name v arena => exact arena ▸ htidy.put x name v
  | make decl arena => exact arena ▸ (htidy.closure decl).define _ _
  | enter parent params args calls within arena =>
    rw [arena]
    exact Arena.bindParams_induction (P := Arena.Tidy) params
      (fun b name v _ hb => hb.define name v) ((htidy.push parent).congr rfl rfl)
  | leave frame caller calls outside arena =>
    rw [arena]
    exact (show (c.session.arena.enter caller).Tidy from htidy.congr rfl rfl).release frame outside

theorem tidy_after (htidy : c.session.arena.Tidy) (n : Nat) : (c.after n).session.arena.Tidy :=
  after_induction (P := fun d => d.session.arena.Tidy) (fun _ => tidy_step) htidy n

variable {n : Nat} {x : Handle} {f g : Frame}

/-- **A frame that is there all along keeps its names**, and binds no others as long as nothing is
declared while it is the innermost one. -/
theorem names_after (htidy : c.session.arena.Tidy) (hf : c.session.arena.frame? x = some f)
    (hlive : ∀ m ≤ n, (c.after m).session.arena.Live x)
    (hg : (c.after n).session.arena.frame? x = some g) :
    f.names ⊆ g.names ∧
      ((∀ m < n, ¬ ((c.after m).declares = true ∧ x = (c.after m).session.arena.current)) →
        g.names = f.names) := by
  induction n generalizing g with
  | zero =>
    obtain rfl := Option.some.inj (hf.symm.trans hg)
    exact ⟨subset_rfl, fun _ => rfl⟩
  | succ n ih =>
    obtain ⟨h, hh⟩ := hlive n (Nat.le_succ n)
    obtain ⟨hbefore, hsame⟩ := ih (fun m hm => hlive m (Nat.le_succ_of_le hm)) hh
    rw [after_succ_eq_step] at hg
    obtain ⟨hstep, hkept⟩ := grows_step (tidy_after htidy n) x h g hh hg
    refine ⟨hbefore.trans hstep, fun hnot => ?_⟩
    rw [hkept (hnot n (Nat.lt_succ_self n))]
    exact hsame fun m hm => hnot m (Nat.lt_succ_of_lt hm)

end Configuration

end Script
