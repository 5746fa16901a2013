import Script.Proofs.Arena.Mirroring
import Script.Proofs.Arena.Recasting

/-!
# Frames that bind nothing

To what is inside it, a frame that binds nothing makes no difference: every name means there what
it means in the frame around. So such frames can be skipped. Wherever one is the parent of a frame
or the innermost scope, the next frame around it that is not skipped takes its place. What a running
program reads and writes then is the same.

- `Frame.skip`, `Arena.skip`: frames and arenas with some frames skipped.
- `Arena.Skips`: what is skipped binds nothing.
- `Skips.get?`, `Skips.owner?`: names have the same values and belong to the same frames.
- `Skips.define`, `Skips.assign`, `push_skip`, `Skips.closure`: what the operations of a running
  program do.
- `Skips.space`, `Skips.within`: one more frame is skipped; frames are lost.
-/

namespace Script

variable {ρ σ : Handle → Handle}

/-! ## Other parents -/

/-- The frame, inside the frame to which `ρ` leads from its parent. -/
def Frame.skip (ρ : Handle → Handle) (f : Frame) : Frame := { f with parent := f.parent.map ρ }

theorem Frame.skip_congr {f : Frame} (h : ∀ p, f.parent = some p → σ p = ρ p) :
    f.skip σ = f.skip ρ := by
  obtain ⟨bindings, parent, pinned⟩ := f
  cases parent with
  | none => rfl
  | some p => exact congrArg (fun q => Frame.mk bindings (some q) pinned) (h p rfl)

/-- The slot with its frame inside another frame. -/
def Slot.skip (ρ : Handle → Handle) (s : Slot) : Slot :=
  { s with frame := s.frame.map (Frame.skip ρ) }

namespace Arena

/-- The arena in which `ρ` leads from a frame outwards to the one that takes its place. -/
def skip (ρ : Handle → Handle) (a : Arena) : Arena :=
  { a with slots := a.slots.map (Slot.skip ρ), current := ρ a.current }

variable {a b : Arena} {x p : Handle} {f : Frame} {name : String} {v : Value} {decl : FunDecl}
  {since : Nat} {held : Closure → Prop}

theorem frame?_skip (a : Arena) (x : Handle) :
    (a.skip ρ).frame? x = (a.frame? x).map (Frame.skip ρ) := by
  unfold frame? skip
  simp only [Array.getElem?_map]
  cases a.slots[x.index]? with
  | none => rfl
  | some s => by_cases h : s.generation = x.generation <;> simp [Slot.skip, h]

theorem live_skip_iff : (a.skip ρ).Live x ↔ a.Live x := by
  unfold Live
  rw [frame?_skip]
  cases a.frame? x <;> simp

theorem Tidy.skip (h : a.Tidy) : (a.skip ρ).Tidy := by
  refine ⟨h.free_nodup, fun i => (h.mem_free_iff i).trans ?_⟩
  simp only [Arena.skip, Array.getElem?_map]
  cases a.slots[i]? with
  | none => simp
  | some s =>
    obtain ⟨n, frame⟩ := s
    simp [Slot.skip]

/-! ## What is skipped -/

/-- The frames from which `ρ` leads elsewhere bind nothing, and it leads from each to where it leads
from the frame around. -/
structure Skips (ρ : Handle → Handle) (a : Arena) : Prop where
  settled : ∀ x, ρ (ρ x) = ρ x
  skipped : ∀ x, ρ x ≠ x →
    ∃ f p, a.frame? x = some f ∧ f.bindings = [] ∧ f.parent = some p ∧ ρ p = ρ x

theorem skips_id (a : Arena) : a.Skips id := ⟨fun _ => rfl, fun _ h => absurd rfl h⟩

theorem Skips.eq_of_not_live (h : a.Skips ρ) (hx : ¬ a.Live x) : ρ x = x := by
  by_contra hskipped
  obtain ⟨f, -, hf, -⟩ := h.skipped x hskipped
  exact hx ⟨f, hf⟩

/-- A frame that binds something is not skipped. -/
theorem Skips.eq_of_binds (h : a.Skips ρ) (hf : a.frame? x = some f) (hname : f.binds name = true) :
    ρ x = x := by
  by_contra hskipped
  obtain ⟨g, -, hg, hempty, -⟩ := h.skipped x hskipped
  obtain rfl := Option.some.inj (hf.symm.trans hg)
  unfold Frame.binds Frame.get? at hname
  rw [hempty] at hname
  cases hname

/-- What is skipped stays so if it binds nothing still. -/
theorem Skips.of_frames (h : a.Skips ρ)
    (hsame : ∀ x f, ρ x ≠ x → a.frame? x = some f →
      ∃ g, b.frame? x = some g ∧ g.bindings = f.bindings ∧ g.parent = f.parent) : b.Skips ρ where
  settled := h.settled
  skipped x hx := by
    obtain ⟨f, p, hf, hempty, hparent, hp⟩ := h.skipped x hx
    obtain ⟨g, hg, hbindings, hsame⟩ := hsame x f hx hf
    exact ⟨g, p, hg, hbindings.trans hempty, hsame.trans hparent, hp⟩

/-- From a frame that is there, `ρ` leads to one that is there, as parents are there. -/
theorem live_of_leads (hground : a.Grounded) (hclosed : a.Closed)
    (hleads : ∀ x f, a.frame? x = some f → ρ x ≠ x → ∃ p, f.parent = some p ∧ ρ p = ρ x)
    (hx : a.Live x) : a.Live (ρ x) := by
  obtain ⟨l, hl⟩ := hground x
  generalize ho : some x = o at hl
  induction hl generalizing x with
  | outermost => cases ho
  | lost hy =>
    obtain rfl := Option.some.inj ho
    exact absurd hx (not_live_iff.2 hy)
  | inside hf _ ih =>
    obtain rfl := Option.some.inj ho
    by_cases hsame : ρ x = x
    · rw [hsame]
      exact hx
    · obtain ⟨p, hparent, hp⟩ := hleads x _ hf hsame
      rw [← hp]
      exact ih (hclosed x _ hf p (Frame.parent_mem_links hparent)) hparent.symm

theorem Skips.live (h : a.Skips ρ) (hground : a.Grounded) (hclosed : a.Closed) (hx : a.Live x) :
    a.Live (ρ x) := by
  refine live_of_leads hground hclosed (fun y f hf hy => ?_) hx
  obtain ⟨g, p, hg, -, hparent, hp⟩ := h.skipped y hy
  obtain rfl := Option.some.inj (hf.symm.trans hg)
  exact ⟨p, hparent, hp⟩

/-! ## Looking up -/

/-- The frames that are met and not skipped. -/
def unskipped (ρ : Handle → Handle) (l : List (Handle × Frame)) : List (Handle × Frame) :=
  (l.filter fun link => ρ link.1 = link.1).map fun link => (link.1, link.2.skip ρ)

theorem Skips.walk (h : a.Skips ρ) {o : Option Handle} {l : List (Handle × Frame)}
    (hwalk : a.Walk o l) : (a.skip ρ).Walk (o.map ρ) (unskipped ρ l) := by
  induction hwalk with
  | outermost => exact .outermost
  | @lost x hx =>
    rw [Option.map_some, h.eq_of_not_live (not_live_iff.2 hx)]
    exact .lost (by rw [frame?_skip, hx]; rfl)
  | @inside x f l hf _ ih =>
    by_cases hsame : ρ x = x
    · rw [Option.map_some, hsame, unskipped, List.filter_cons_of_pos (by simpa using hsame)]
      exact .inside (by rw [frame?_skip, hf]; rfl) ih
    · -- the walk goes on from the parent, to which `ρ` leads as well
      obtain ⟨g, p, hg, -, hparent, hp⟩ := h.skipped x hsame
      obtain rfl := Option.some.inj (hf.symm.trans hg)
      rw [hparent, Option.map_some, hp] at ih
      rwa [Option.map_some, unskipped, List.filter_cons_of_neg (by simpa using hsame)]

theorem Skips.chain (h : a.Skips ρ) (hground : a.Grounded) (x : Handle) :
    (a.skip ρ).chain (ρ x) = unskipped ρ (a.chain x) := by
  obtain ⟨l, hl⟩ := hground x
  rw [chain_eq_of_walk hl]
  exact chain_eq_of_walk (h.walk hl)

/-- What is skipped in a chain binds nothing. -/
theorem Skips.bindings_eq_nil (h : a.Skips ρ) {link : Handle × Frame} (hlink : link ∈ a.chain x)
    (hskipped : ρ link.1 ≠ link.1) : link.2.bindings = [] := by
  obtain ⟨f, -, hf, hempty, -⟩ := h.skipped link.1 hskipped
  obtain rfl := Option.some.inj ((frame?_of_mem_chainFrom hlink).symm.trans hf)
  exact hempty

/-- **A name has the same value** if frames are skipped. -/
theorem Skips.get? (h : a.Skips ρ) (hground : a.Grounded) (name : String) :
    (a.skip ρ).get? name = a.get? name := by
  have hempty : ∀ link ∈ a.chain a.current, ρ link.1 ≠ link.1 → link.2.bindings = [] :=
    fun link hlink => h.bindings_eq_nil hlink
  show ((a.skip ρ).chain (ρ a.current)).findSome? _ = (a.chain a.current).findSome? _
  rw [h.chain hground]
  generalize a.chain a.current = l at hempty
  induction l with
  | nil => rfl
  | cons link l ih =>
    obtain ⟨hfirst, hrest⟩ := List.forall_mem_cons.1 hempty
    by_cases hsame : ρ link.1 = link.1
    · have hget : (link.1, link.2.skip ρ).2.get? name = link.2.get? name := rfl
      rw [unskipped, List.filter_cons_of_pos (by simpa using hsame), List.map_cons,
        List.findSome?_cons, List.findSome?_cons, hget]
      cases link.2.get? name with
      | none => exact ih hrest
      | some v => rfl
    · have hnone : link.2.get? name = none := by
        unfold Frame.get?
        rw [hfirst hsame]
        rfl
      rw [unskipped, List.filter_cons_of_neg (by simpa using hsame), List.findSome?_cons, hnone]
      exact ih hrest

/-- A name belongs to the same frame, which is not skipped. -/
theorem Skips.owner? (h : a.Skips ρ) (hground : a.Grounded) (name : String) :
    (a.skip ρ).owner? name = a.owner? name := by
  have hempty : ∀ link ∈ a.chain a.current, ρ link.1 ≠ link.1 → link.2.bindings = [] :=
    fun link hlink => h.bindings_eq_nil hlink
  show (((a.skip ρ).chain (ρ a.current)).find? _).map _ = ((a.chain a.current).find? _).map _
  rw [h.chain hground]
  generalize a.chain a.current = l at hempty
  induction l with
  | nil => rfl
  | cons link l ih =>
    obtain ⟨hfirst, hrest⟩ := List.forall_mem_cons.1 hempty
    by_cases hsame : ρ link.1 = link.1
    · have hbinds : (link.1, link.2.skip ρ).2.binds name = link.2.binds name := rfl
      rw [unskipped, List.filter_cons_of_pos (by simpa using hsame), List.map_cons,
        List.find?_cons, List.find?_cons, hbinds]
      cases link.2.binds name with
      | false => exact ih hrest
      | true => rfl
    · have hnone : link.2.binds name = false := by
        unfold Frame.binds Frame.get?
        rw [hfirst hsame]
        rfl
      rw [unskipped, List.filter_cons_of_neg (by simpa using hsame), List.find?_cons, hnone]
      exact ih hrest

theorem Skips.eq_of_owner? (h : a.Skips ρ) (hx : a.owner? name = some x) : ρ x = x := by
  obtain ⟨f, hf, hname⟩ := exists_frame_of_owner? hx
  exact h.eq_of_binds hf hname

/-! ## Variables -/

theorem put_skip (a : Arena) (x : Handle) (name : String) (v : Value) :
    (a.skip ρ).put x name v = (a.put x name v).skip ρ := by
  unfold put updateFrame skip
  simp only [mk.injEq, and_true]
  refine map_modify _ _ _ (fun s => ?_) a.slots x.index
  obtain ⟨n, frame⟩ := s
  by_cases hn : n = x.generation
  · cases frame with
    | none => simp [Slot.skip, hn]
    | some f =>
      simp only [Slot.skip, hn, if_true, Option.map_some]
      rfl
  · simp [Slot.skip, hn]

theorem Skips.put (h : a.Skips ρ) (hx : ρ x = x) (name : String) (v : Value) :
    (a.put x name v).Skips ρ := by
  refine h.of_frames fun y f hy hf => ⟨f, ?_, rfl, rfl⟩
  rw [frame?_put, if_neg, hf]
  rintro rfl
  exact hy hx

/-- A definition in a scope that is not skipped. -/
theorem Skips.define (h : a.Skips ρ) (hcurrent : ρ a.current = a.current) (name : String)
    (v : Value) : (a.skip ρ).define name v = ((a.define name v).1.skip ρ, (a.define name v).2) ∧
      (a.define name v).1.Skips ρ := by
  have hcurrent' : (a.skip ρ).current = a.current := hcurrent
  have hpolicy : (a.skip ρ).policy = a.policy := rfl
  unfold Arena.define
  rw [frame?_skip, hcurrent', hpolicy]
  cases hf : a.frame? a.current with
  | none => exact ⟨rfl, h⟩
  | some f =>
    have hbinds : (f.skip ρ).binds name = f.binds name := rfl
    simp only [Option.map_some, hbinds]
    split
    · exact ⟨rfl, h⟩
    · exact ⟨by rw [put_skip], h.put hcurrent name v⟩

theorem Skips.assign (h : a.Skips ρ) (hground : a.Grounded) (name : String) (v : Value) :
    (a.skip ρ).assign name v = ((a.assign name v).1.skip ρ, (a.assign name v).2) ∧
      (a.assign name v).1.Skips ρ := by
  unfold Arena.assign
  rw [h.owner? hground]
  cases hx : a.owner? name with
  | none => exact ⟨rfl, h⟩
  | some x => exact ⟨by simp only [put_skip], h.put (h.eq_of_owner? hx) name v⟩

/-! ## New frames -/

theorem push_skip (a : Arena) (p : Handle) :
    (a.skip ρ).push (ρ p) = ((a.push p).1.skip ρ, (a.push p).2) := by
  have hempty : (Frame.empty p).skip ρ = Frame.empty (ρ p) := rfl
  have hfree : (a.skip ρ).free = a.free := rfl
  have hslots : (a.skip ρ).slots = a.slots.map (Slot.skip ρ) := rfl
  unfold push
  rw [hfree]
  cases hf : a.free with
  | nil => simp [skip, Slot.skip, hempty, hf]
  | cons i rest =>
    have hmodify := map_modify (Slot.skip ρ) (fun s => { s with frame := some (.empty p) })
      (fun s => { s with frame := some (.empty (ρ p)) }) (fun s => rfl) a.slots i
    simp only [hslots, hmodify, Array.getElem?_map]
    cases a.slots[i]? <;> rfl

theorem Skips.push (h : a.Skips ρ) (htidy : a.Tidy) (p : Handle) : (a.push p).1.Skips ρ :=
  h.of_frames fun _ f _ hf => ⟨f, htidy.frame?_push_of_live p hf, rfl, rfl⟩

/-- The innermost scope does not matter to what is skipped. -/
theorem Skips.enter (h : a.Skips ρ) (x : Handle) : (a.enter x).Skips ρ :=
  h.of_frames fun _ f _ hf => ⟨f, hf, rfl, rfl⟩

/-- Skipping a new frame. -/
theorem Skips.space (h : a.Skips ρ) (hs : a.Sound since held) (hp : a.Live p) :
    (a.push p).1.Skips (Function.update ρ (a.push p).2 (ρ p)) := by
  have hne {y : Handle} (hy : a.Live y) : y ≠ (a.push p).2 := by
    rintro rfl
    exact not_live_iff.2 (hs.tidy.frame?_pushed p) hy
  have hlive {y : Handle} (hy : a.Live y) : a.Live (ρ y) := h.live hs.grounded hs.closed hy
  have hold {y : Handle} (hy : y ≠ (a.push p).2) :
      Function.update ρ (a.push p).2 (ρ p) y = ρ y := Function.update_of_ne hy ..
  have hnew : Function.update ρ (a.push p).2 (ρ p) (a.push p).2 = ρ p := Function.update_self ..
  constructor
  · intro x
    by_cases hx : x = (a.push p).2
    · rw [hx, hnew, hold (hne (hlive hp)), h.settled]
    · rw [hold hx]
      by_cases hlead : ρ x = (a.push p).2
      · -- nothing led to the new frame before
        by_cases hsame : ρ x = x
        · exact absurd (hsame.symm.trans hlead) hx
        · obtain ⟨f, -, hf, -⟩ := h.skipped x hsame
          exact absurd hlead (hne (hlive ⟨f, hf⟩))
      · rw [hold hlead, h.settled]
  · intro x hx
    by_cases heq : x = (a.push p).2
    · refine ⟨.empty p, p, ?_, rfl, rfl, ?_⟩
      · rw [hs.tidy.frame?_push, if_pos heq]
      · rw [heq, hnew, hold (hne hp)]
    · rw [hold heq] at hx ⊢
      obtain ⟨f, q, hf, hempty, hparent, hq⟩ := h.skipped x hx
      refine ⟨f, q, hs.tidy.frame?_push_of_live p hf, hempty, hparent, ?_⟩
      rw [hold (hne (hs.live_link hf q (Frame.parent_mem_links hparent))), hq]

/-! ## New functions -/

/-- What keeps to a property from some point on is kept to by an initial part of a list. -/
theorem takeWhile_eq_filter {α : Type} {q : α → Bool} {l : List α}
    (h : l.Pairwise fun x y => q y = true → q x = true) : l.takeWhile q = l.filter q := by
  induction h with
  | nil => rfl
  | @cons x l hx _ ih =>
    cases hq : q x with
    | true => rw [List.takeWhile_cons_of_pos hq, List.filter_cons_of_pos hq, ih]
    | false =>
      have hnone : ∀ y ∈ l, ¬ q y = true := fun y hy hqy =>
        Bool.false_ne_true (hq.symm.trans (hx y hy hqy))
      rw [List.takeWhile_cons_of_neg (by simp [hq]), List.filter_cons_of_neg (by simp [hq]),
        List.filter_eq_nil_iff.2 hnone]

/-- Around a pinned frame all frames are pinned. -/
theorem Sound.pinned_outwards (h : a.Sound since held) {o : Option Handle}
    {l : List (Handle × Frame)} (hwalk : a.Walk o l) :
    (∀ x f, o = some x → a.frame? x = some f → f.pinned = true → ∀ link ∈ l, link.2.pinned = true) ∧
      l.Pairwise fun link link' => link.2.pinned = true → link'.2.pinned = true := by
  induction hwalk with
  | outermost => exact ⟨fun _ _ ho => (by cases ho), .nil⟩
  | lost => exact ⟨fun _ _ _ _ _ => List.forall_mem_nil _, .nil⟩
  | @inside x f l hf hrest ih =>
    have hall : f.pinned = true → ∀ link ∈ l, link.2.pinned = true := by
      intro hpinned
      cases hparent : f.parent with
      | none =>
        rw [hparent] at hrest
        cases hrest
        exact List.forall_mem_nil _
      | some p =>
        obtain ⟨g, hg, hpins⟩ := h.parent x f p hf hparent
        exact ih.1 p g hparent hg (hpins hpinned)
    refine ⟨fun y g ho hg hpinned => ?_, .cons (fun link hlink hpinned => ?_) ih.2⟩
    · obtain rfl := Option.some.inj ho
      obtain rfl := Option.some.inj (hf.symm.trans hg)
      exact List.forall_mem_cons.2 ⟨hpinned, hall hpinned⟩
    · exact hall hpinned link hlink

/-- Skipping frames leaves out those that are skipped from the scopes that a new function pins. -/
theorem Skips.mem_unpinnedScopes_iff (h : a.Skips ρ) (hs : a.Sound since held) (hx : ρ x = x) :
    x ∈ (a.skip ρ).unpinnedScopes ↔ x ∈ a.unpinnedScopes := by
  obtain ⟨l, hl⟩ := hs.grounded a.current
  have hpinned : l.Pairwise fun link link' =>
      (!link'.2.pinned) = true → (!link.2.pinned) = true := by
    refine (hs.pinned_outwards hl).2.imp fun {link link'} himp hlink => ?_
    cases hfirst : link.2.pinned with
    | false => rfl
    | true => rw [himp hfirst] at hlink; exact hlink
  have hpinned' : (unskipped ρ l).Pairwise fun link link' =>
      (!link'.2.pinned) = true → (!link.2.pinned) = true :=
    List.pairwise_map.2 (hpinned.sublist List.filter_sublist)
  have hchain : (a.skip ρ).chain (a.skip ρ).current = unskipped ρ l := by
    show (a.skip ρ).chain (ρ a.current) = _
    rw [h.chain hs.grounded, chain_eq_of_walk hl]
  unfold unpinnedScopes
  rw [hchain, chain_eq_of_walk hl, takeWhile_eq_filter hpinned, takeWhile_eq_filter hpinned']
  simp only [unskipped, List.mem_map, List.mem_filter, decide_eq_true_eq]
  constructor
  · rintro ⟨_, ⟨⟨link, ⟨hlink, -⟩, rfl⟩, hfree⟩, rfl⟩
    exact ⟨link, ⟨hlink, hfree⟩, rfl⟩
  · rintro ⟨link, ⟨hlink, hfree⟩, rfl⟩
    exact ⟨_, ⟨⟨link, ⟨hlink, hx⟩, rfl⟩, hfree⟩, rfl⟩

/-- Frames that are not skipped are the same in both arenas. -/
structure Agrees (ρ : Handle → Handle) (a b : Arena) : Prop where
  frame : ∀ x, ρ x = x → b.frame? x = a.frame? x
  current : b.current = a.current
  nextFunction : b.nextFunction = a.nextFunction
  policy : b.policy = a.policy

theorem Agrees.refl (a : Arena) : a.Agrees ρ a := ⟨fun _ _ => rfl, rfl, rfl, rfl⟩

/-- A definition in a scope that is not skipped. -/
theorem Agrees.define (h : a.Agrees ρ b) (hcurrent : ρ a.current = a.current) (name : String)
    (v : Value) :
    (a.define name v).1.Agrees ρ (b.define name v).1 ∧
      (b.define name v).2 = (a.define name v).2 := by
  unfold Arena.define
  rw [h.current, h.frame _ hcurrent, h.policy]
  cases a.frame? a.current with
  | none => exact ⟨h, rfl⟩
  | some f =>
    simp only
    split
    · exact ⟨h, rfl⟩
    · refine ⟨⟨fun x hx => ?_, h.current, h.nextFunction, h.policy⟩, rfl⟩
      rw [frame?_put, frame?_put, h.frame _ hcurrent, h.frame x hx]

/-- A new function pins the same scopes, apart from those that are skipped. -/
theorem Skips.closure (h : a.Skips ρ) (hs : a.Sound since held) (decl : FunDecl) :
    ((a.skip ρ).closure decl).1.Agrees ρ ((a.closure decl).1.skip ρ) ∧
      (a.closure decl).1.Skips ρ := by
  refine ⟨⟨fun x hx => ?_, ?_, rfl, ?_⟩, h.of_frames fun x f _ hf => ?_⟩
  · rw [frame?_skip, frame?_closure, frame?_closure, frame?_skip]
    cases a.frame? x with
    | none => rfl
    | some f =>
      simp only [Option.map_some, h.mem_unpinnedScopes_iff hs hx]
      split <;> rfl
  · show ρ (a.closure decl).1.current = ((a.skip ρ).closure decl).1.current
    rw [current_closure, current_closure]
    rfl
  · show (a.closure decl).1.policy = ((a.skip ρ).closure decl).1.policy
    rw [policy_closure, policy_closure]
    rfl
  · rw [frame?_closure, hf, Option.map_some]
    by_cases hmem : x ∈ a.unpinnedScopes
    · exact ⟨f.pin, by rw [if_pos hmem], rfl, rfl⟩
    · exact ⟨f, by rw [if_neg hmem], rfl, rfl⟩

/-! ## Losing frames -/

/-- What `ρ` skips, as far as it is there. -/
def confine (b : Arena) (ρ : Handle → Handle) (x : Handle) : Handle := if b.Live x then ρ x else x

theorem confine_of_live (hx : b.Live x) : b.confine ρ x = ρ x := if_pos hx

/-- What is skipped and not lost binds nothing still. -/
theorem Skips.within (h : a.Skips ρ) (hwithin : b.Within a) (hground : b.Grounded)
    (hclosed : b.Closed) : b.Skips (b.confine ρ) := by
  have hleads : ∀ x f, b.frame? x = some f → ρ x ≠ x → f.bindings = [] ∧
      ∃ p, f.parent = some p ∧ ρ p = ρ x := by
    intro x f hf hx
    obtain ⟨g, p, hg, hempty, hparent, hp⟩ := h.skipped x hx
    obtain rfl := Option.some.inj ((hwithin x f hf).symm.trans hg)
    exact ⟨hempty, p, hparent, hp⟩
  have hlive {y : Handle} (hy : b.Live y) : b.Live (ρ y) :=
    live_of_leads hground hclosed (fun x f hf hx => (hleads x f hf hx).2) hy
  constructor
  · intro x
    by_cases hx : b.Live x
    · rw [confine_of_live hx, confine_of_live (hlive hx), h.settled]
    · simp only [confine, if_neg hx]
  · intro x hx
    by_cases hthere : b.Live x
    · rw [confine_of_live hthere] at hx ⊢
      obtain ⟨f, hf⟩ := hthere
      obtain ⟨hempty, p, hparent, hp⟩ := hleads x f hf hx
      refine ⟨f, p, hf, hempty, hparent, ?_⟩
      rw [confine_of_live (hclosed x f hf p (Frame.parent_mem_links hparent)), hp]
    · exact absurd (if_neg hthere) hx

/-- Where no handle dangles, only frames that are there matter to what takes their place. -/
theorem frame?_skip_confine (hclosed : b.Closed) (x : Handle) :
    (b.skip (b.confine ρ)).frame? x = (b.skip ρ).frame? x := by
  rw [frame?_skip, frame?_skip]
  cases hf : b.frame? x with
  | none => rfl
  | some f =>
    refine congrArg some (Frame.skip_congr fun p hp => confine_of_live ?_)
    exact hclosed x f hf p (Frame.parent_mem_links hp)

/-- Going back to a scope goes back to what takes its place. -/
theorem GoesBack.skip (h : a.GoesBack x b) (hclosed : b.Closed) (hcurrent : b.Live b.current) :
    (a.skip ρ).GoesBack (ρ x) (b.skip (b.confine ρ)) where
  within y f hf := by
    rw [frame?_skip_confine hclosed, frame?_skip] at hf
    obtain ⟨g, hg, rfl⟩ := Option.map_eq_some_iff.1 hf
    rw [frame?_skip, h.within y g hg]
    rfl
  current := by
    show b.confine ρ b.current = ρ x
    rw [confine_of_live hcurrent, h.current]
  nextFunction := h.nextFunction
  policy := h.policy

/-- What takes the place of a frame that is there is there. -/
theorem Skips.closed (h : a.Skips ρ) (hground : a.Grounded) (hclosed : a.Closed) :
    (a.skip ρ).Closed := by
  intro x f hf y hy
  rw [frame?_skip] at hf
  obtain ⟨g, hg, rfl⟩ := Option.map_eq_some_iff.1 hf
  rw [live_skip_iff]
  rcases List.mem_append.1 hy with hy | hy
  · obtain ⟨p, hparent, rfl⟩ := Option.map_eq_some_iff.1 (Option.mem_toList.1 hy)
    exact h.live hground hclosed (hclosed x g hg p (Frame.parent_mem_links hparent))
  · exact hclosed x g hg y (List.mem_append_right _ hy)

end Arena

end Script
