import Script.Proofs.Grammar.Joining
import Script.Proofs.Machine.Recasting
import Script.Proofs.Machine.Sequencing
import Script.Proofs.Session.StaticChecks

/-!
# Programs in chunks

A session runs a program in chunks as it runs the whole. What the program does behind a chunk that
has ended by itself does not depend on whether it stands in the same text; only the positions at
which it fails do, and only those in the part that stands further down.

- `Origin`: a position in a program of which one part is moved; `tag` and `ofTag` write it down as a
  position.
- `run_tagged`: the run of a program with its last part at any place is seen from one run.
- `Session.begin`, `interpret_append`: a chunk, and running two of them as one.
- `interpret_moved`: what a program ends with, wherever its last part stands.
- `Session.GoesOnAs`: both together.
- `chunks_run_as_whole`: two texts, one below the other.
-/

namespace Script

/-! ## Positions in two parts -/

/-- A position in the part of a program that stays where it is, or in the part that is added. -/
inductive Origin
  | kept (p : Position)
  | added (p : Position)
  deriving DecidableEq

namespace Origin

/-- The position in the program whose added part stands where `μ` says. -/
def place (μ : Position → Position) : Origin → Position
  | kept p => p
  | added p => μ p

/-- Which positions there are in the part that is kept, and in the part that is added. -/
def Within (keeps adds : List Position) : Origin → Prop
  | kept p => p ∈ keeps
  | added p => p ∈ adds

/-- The origin written down as a position: those in the part that is kept are on even lines. -/
def tag : Origin → Position
  | kept p => ⟨2 * p.line, p.column⟩
  | added p => ⟨2 * p.line + 1, p.column⟩

/-- The origin that is written down as a position. -/
def ofTag (q : Position) : Origin :=
  if q.line % 2 = 0 then kept ⟨q.line / 2, q.column⟩ else added ⟨q.line / 2, q.column⟩

@[simp] theorem ofTag_tag (o : Origin) : ofTag o.tag = o := by
  cases o with
  | kept p =>
    have heven : 2 * p.line % 2 = 0 := by omega
    have hline : 2 * p.line / 2 = p.line := by omega
    simp only [ofTag, tag, heven, hline, if_true]
  | added p =>
    have hodd : ¬ (2 * p.line + 1) % 2 = 0 := by omega
    have hline : (2 * p.line + 1) / 2 = p.line := by omega
    simp only [ofTag, tag, hodd, hline, if_false]

/-- The position that is meant by one at which an origin is written down. -/
def read (μ : Position → Position) (q : Position) : Position := (ofTag q).place μ

variable {μ : Position → Position}

theorem read_comp_kept : read μ ∘ (tag ∘ kept) = id :=
  funext fun p => congrArg (place μ) (ofTag_tag (kept p))

theorem read_comp_added : read μ ∘ (tag ∘ added) = μ :=
  funext fun p => congrArg (place μ) (ofTag_tag (added p))

end Origin

namespace Configuration

variable {s t : Session} {ps qs : Program} {n : Nat} {o : Outcome} {μ : Position → Position}

/-- The beginning of a program of two parts, with every position written down with its origin. -/
def tagged (ps qs : Program) (s : Session) : Configuration :=
  ⟨.done .normal, [.sequence (ps.moved (Origin.tag ∘ .kept) ++ qs.moved (Origin.tag ∘ .added))],
    s.recast (.moving (Origin.tag ∘ .kept))⟩

/-- Reading the origins gives the program with its second part at any place. -/
theorem tagged_recast (μ : Position → Position) (ps qs : Program) (s : Session) :
    (tagged ps qs s).recast (.moving (Origin.read μ)) =
      ⟨.done .normal, [.sequence (ps ++ qs.moved μ)], s⟩ := by
  unfold tagged
  rw [begin_recast, Session.recast_recast, Origin.read_comp_kept, Session.recast_id, Program.moved,
    Stmt.movedEach_append, Program.moved, Program.moved, Stmt.movedEach_moved, Stmt.movedEach_moved,
    Origin.read_comp_kept, Origin.read_comp_added, Stmt.movedEach_id]

/-- A tagged run fails at a position whose origin is in the program or in the session. -/
theorem within_of_run_tagged {d : Diagnostic} (h : run n (tagged ps qs s) = some (.error d, t)) :
    (Origin.ofTag d.pos).Within (ps.positions ++ s.positions) qs.positions := by
  have hmem := mem_of_run h
  rw [Program.positions, Stmt.positionsEach_append, Stmt.positionsEach_moved,
    Stmt.positionsEach_moved, Session.positions_recast, List.mem_append, List.mem_append] at hmem
  rcases hmem with (hp | hq) | hs
  · obtain ⟨p, hp, hpos⟩ := List.mem_map.1 hp
    rw [← hpos, Function.comp_apply, Origin.ofTag_tag]
    exact List.mem_append_left _ hp
  · obtain ⟨p, hp, hpos⟩ := List.mem_map.1 hq
    rw [← hpos, Function.comp_apply, Origin.ofTag_tag]
    exact hp
  · obtain ⟨p, hp, hpos⟩ := List.mem_map.1 hs
    rw [← hpos, Function.comp_apply, Origin.ofTag_tag]
    exact List.mem_append_right _ hp

end Configuration

/-! ## Chunks -/

/-- What a chunk ends with: nothing, or a fault and where it was raised. -/
abbrev ChunkEnd := Except (Fault × Origin) Unit

/-- The end as it is reported when the added part stands where `μ` says. -/
def ChunkEnd.report (μ : Position → Position) (e : ChunkEnd) : Except Diagnostic Unit :=
  e.mapError fun (fault, origin) => ⟨fault, origin.place μ⟩

namespace Session

/-- Two sessions are the same but for where their functions were declared. -/
def SameButPositions (s t : Session) : Prop :=
  s.recast (.moving fun _ => .start) = t.recast (.moving fun _ => .start)

/-- The machine at the beginning of a chunk. A pending jump is forgotten. -/
def begin (s : Session) (program : Program) : Configuration :=
  ⟨.done .normal, [.sequence program], { s with pending := .normal }⟩

variable {s t : Session} {ps qs : Program} {n : Nat} {o : Outcome} {μ : Position → Position}

theorem interpret_eq (s : Session) (n : Nat) (program : Program) :
    s.interpret n program = ((s.begin program).run n).map fun (r, t) =>
      (r.map fun _ => (), { t with pending := .normal }) := rfl

/-- A session at other positions is the same but for these. -/
theorem sameButPositions_recast (μ ν : Position → Position) (s : Session) :
    (s.recast (.moving μ)).SameButPositions (s.recast (.moving ν)) := by
  unfold SameButPositions
  rw [recast_recast, recast_recast]
  rfl

/-- Forgetting a pending jump adds no positions. -/
theorem positions_normal (s : Session) :
    ∀ p ∈ Session.positions { s with pending := .normal }, p ∈ s.positions := by
  intro p hp
  obtain ⟨f, hf, hp⟩ := List.mem_flatMap.1 hp
  refine List.mem_flatMap.2 ⟨f, ?_, hp⟩
  rcases List.mem_append.1 hf with hf | hf
  · exact List.mem_append_left _ hf
  · refine List.mem_append_right _ ?_
    rcases List.mem_append.1 hf with hf | hf
    · exact List.mem_append_left _ hf
    · exact List.mem_append_right _ (List.mem_append_right _ hf)

theorem begin_append (μ : Position → Position) (s : Session) (ps qs : Program) :
    s.begin (ps ++ qs.moved μ) =
      (Configuration.tagged ps qs { s with pending := .normal }).recast (.moving (Origin.read μ)) :=
  (Configuration.tagged_recast μ ps qs _).symm

/-- At no moment does the output depend on where a part of the program stands. -/
theorem sink_after_begin (μ ν : Position → Position) (n : Nat) (s : Session) (ps qs : Program) :
    ((s.begin (ps ++ qs.moved μ)).after n).session.sink =
      ((s.begin (ps ++ qs.moved ν)).after n).session.sink := by
  have hsink (c : Configuration) (r : Recast) : (c.recast r).session.sink = c.session.sink := rfl
  rw [begin_append, begin_append, Configuration.after_moving, Configuration.after_moving, hsink,
    hsink]

/-- **A program ends alike wherever its last part stands**, but that its faults in this part are
reported where it stands. -/
theorem interpret_moved (n : Nat) (s : Session) (ps qs : Program) :
    (∀ μ, s.interpret n (ps ++ qs.moved μ) = none) ∨
      ∃ (e : ChunkEnd) (t : Session),
        (∀ fault origin, e = .error (fault, origin) →
          origin.Within (ps.positions ++ s.positions) qs.positions) ∧
        ∀ μ, s.interpret n (ps ++ qs.moved μ) =
          some (e.report μ, t.recast (.moving (Origin.read μ))) := by
  have hsame (μ : Position → Position) := Configuration.run_recast (r := .moving (Origin.read μ))
    (c := Configuration.tagged ps qs { s with pending := .normal }) (n := n) (by rintro ⟨⟩)
  cases hrun : (Configuration.tagged ps qs { s with pending := .normal }).run n with
  | none =>
    refine .inl fun μ => ?_
    rw [interpret_eq, begin_append, hsame, hrun]
    rfl
  | some r =>
    obtain ⟨e, t⟩ := r
    cases e with
    | ok o =>
      refine .inr ⟨.ok (), { t with pending := .normal }, ⟨by rintro _ _ ⟨⟩, fun μ => ?_⟩⟩
      rw [interpret_eq, begin_append, hsame, hrun]
      rfl
    | error d =>
      refine .inr ⟨.error (d.fault, .ofTag d.pos), { t with pending := .normal }, ?_, fun μ => ?_⟩
      · rintro _ _ ⟨⟩
        have hwithin := Configuration.within_of_run_tagged hrun
        cases horigin : Origin.ofTag d.pos with
        | kept p =>
          rw [horigin] at hwithin
          exact (List.mem_append.1 hwithin).elim (List.mem_append_left _) fun hp =>
            List.mem_append_right _ (positions_normal s p hp)
        | added p =>
          rw [horigin] at hwithin
          exact hwithin
      · rw [interpret_eq, begin_append, hsame, hrun]
        rfl

/-- **Two chunks are run as one**: if the first ends by itself, then some steps later the machine
that runs both is where the one is that begins the second in the session that the first has left. -/
theorem interpret_append (hrun : (s.begin ps).run n = some (.ok o, t)) (ho : o.asSignal = .normal)
    (qs : Program) :
    ∃ j, ∀ m, ((s.begin (ps ++ qs)).after (j + m)).session = ((t.begin qs).after m).session ∧
      s.interpret (j + m) (ps ++ qs) = t.interpret m qs := by
  have hpending : t = { t with pending := .normal } := by
    have hsame := (Configuration.settings_run hrun).pending
    rw [← show t.pending = .normal from hsame]
  obtain ⟨j, hj⟩ := Configuration.run_append hrun ho qs
  refine ⟨j, fun m => ?_⟩
  rw [interpret_eq, interpret_eq]
  unfold begin
  rw [← hpending, (hj m).1, (hj m).2]
  exact ⟨rfl, rfl⟩

/-- From the step `j` on, `s` does with the program that consists of `ps` and `qs` what `t` does
with `qs` alone, wherever `qs` stands in the program: at every moment it has written the same
output, and it ends when `t` does, with the same result in the same session. A fault raised in `qs`
is reported where `qs` stands, and one raised in `ps`, or in a function from before, where it
was. -/
structure GoesOnAs (j : Nat) (s : Session) (ps qs : Program) (t : Session) : Prop where
  output (m : Nat) (μ : Position → Position) :
    ((s.begin (ps ++ qs.moved μ)).after (j + m)).session.sink =
      ((t.begin qs).after m).session.sink
  ends (m : Nat) :
    (t.interpret m qs = none ∧ ∀ μ, s.interpret (j + m) (ps ++ qs.moved μ) = none) ∨
      ∃ (e : ChunkEnd) (t' : Session), t.interpret m qs = some (e.report id, t') ∧
        (∀ fault origin, e = .error (fault, origin) →
          origin.Within (ps.positions ++ s.positions) qs.positions) ∧
        ∀ μ, ∃ s', s.interpret (j + m) (ps ++ qs.moved μ) = some (e.report μ, s') ∧
          s'.sink = t'.sink ∧ s'.SameButPositions t'

theorem exists_goesOnAs (hrun : (s.begin ps).run n = some (.ok o, t)) (ho : o.asSignal = .normal)
    (qs : Program) : ∃ j, GoesOnAs j s ps qs t := by
  obtain ⟨j, hj⟩ := interpret_append hrun ho qs
  -- the second chunk alone is the second part of a program that is not moved
  have hself : ps ++ qs.moved id = ps ++ qs := by rw [Program.moved, Stmt.movedEach_id]
  refine ⟨j, ⟨fun m μ => ?_, fun m => ?_⟩⟩
  · rw [sink_after_begin μ id, hself, (hj m).1]
  · rw [← (hj m).2]
    rcases interpret_moved (j + m) s ps qs with hnone | ⟨e, u, hwithin, hends⟩
    · refine .inl ⟨?_, hnone⟩
      rw [← hself]
      exact hnone id
    · refine .inr ⟨e, u.recast (.moving (Origin.read id)), ?_, hwithin, fun μ => ?_⟩
      · rw [← hself]
        exact hends id
      · exact ⟨_, hends μ, rfl, sameButPositions_recast _ _ u⟩

end Session

/-! ## Texts -/

/-- **A program is run in chunks as it is run whole.** If two texts are programs, the text that
consists of both with a line feed between them is the program that consists of both, the second
further down by the lines of the first. Whatever session it is run in, if the first program ends
without an error and without a `return`, the session goes on with the whole as the session that the
first has left does with the second. -/
theorem chunks_run_as_whole {above below : String} {ps qs : Program}
    (habove : compile above = .ok ps) (hbelow : compile below = .ok qs) :
    compile (above ++ "\n" ++ below) = .ok (ps ++ qs.moved (.down (lineCount above))) ∧
      ∀ (s t : Session) (n : Nat) (o : Outcome), (s.begin ps).run n = some (.ok o, t) →
        (∀ v, o.asSignal ≠ .returned v) →
        s.interpret n ps = some (.ok (), t) ∧ ∃ j, Session.GoesOnAs j s ps qs t := by
  refine ⟨compile_join habove hbelow, fun s t n o hrun hreturn => ⟨?_, ?_⟩⟩
  · have hpending : t.pending = .normal := (Configuration.settings_run hrun).pending
    rw [Session.interpret_eq, hrun, Option.map_some, ← hpending]
    rfl
  · -- a jump that seeks a loop has found one before it gets here
    have hfits : ∀ st ∈ ps, st.Fits [] := fun st hst =>
      ⟨compile_placed habove st hst, fun _ hloop => nomatch hloop⟩
    have hcontained : (s.begin ps).Contained :=
      .inl (Configuration.ready_done (.cons hfits .nil) rfl)
    have hseeks := hcontained.seeksLoop_of_run hrun
    have ho : o.asSignal = .normal := by
      cases hsignal : o.asSignal with
      | normal => rfl
      | exitLoop =>
        rw [hsignal] at hseeks
        cases hseeks
      | nextIteration =>
        rw [hsignal] at hseeks
        cases hseeks
      | returned v => exact absurd hsignal (hreturn v)
    exact Session.exists_goesOnAs hrun ho qs

/-- The second chunk fails in a function of the first, which ends with a comment. -/
theorem chunks_run_as_whole_laterCall :
    let above := "fun f(a) \x7b return -a; \x7d // negates"
    let below := "print f(1);\nf(nil);"
    ∃ ps qs t j, compile above = .ok ps ∧ compile below = .ok qs ∧
      compile (above ++ "\n" ++ below) = .ok (ps ++ qs.moved (.down 1)) ∧
      (Session.new (.new none)).interpret 10 ps = some (.ok (), t) ∧
      (t.interpret 40 qs).map Prod.fst = some (.error ⟨.notNegatable .nil, ⟨1, 19⟩⟩) ∧
        Session.GoesOnAs j (.new (.new none)) ps qs t := by
  intro above below
  have hfails : ((compile above).toOption.any fun ps => (compile below).toOption.any fun qs =>
      (((Session.new (.new none)).begin ps).run 10).any fun r =>
        (r.1.toOption.any fun o => o.asSignal.isNormal) &&
          decide ((r.2.interpret 40 qs).map Prod.fst =
            some (.error ⟨.notNegatable .nil, ⟨1, 19⟩⟩))) = true := by decide +kernel
  have hlines : lineCount above = 1 := by decide +kernel
  obtain ⟨ps, hps, hfails⟩ := (Option.any_eq_true ..).1 hfails
  obtain ⟨qs, hqs, hfails⟩ := (Option.any_eq_true ..).1 hfails
  obtain ⟨⟨r, t⟩, hends, hfails⟩ := (Option.any_eq_true ..).1 hfails
  obtain ⟨hr, hsecond⟩ := Bool.and_eq_true_iff.1 hfails
  obtain ⟨o, ho, hnormal⟩ := (Option.any_eq_true ..).1 hr
  obtain rfl := Configuration.eq_ok_of_toOption_eq_some ho
  have habove := Configuration.eq_ok_of_toOption_eq_some hps
  have hbelow := Configuration.eq_ok_of_toOption_eq_some hqs
  obtain ⟨hjoined, hruns⟩ := chunks_run_as_whole habove hbelow
  rw [hlines] at hjoined
  obtain ⟨hfirst, j, hgoesOn⟩ := hruns _ t 10 o hends fun v hv => by
    rw [hv] at hnormal
    cases hnormal
  exact ⟨ps, qs, t, j, habove, hbelow, hjoined, hfirst, of_decide_eq_true hsecond, hgoesOn⟩

end Script
