import Script.Proofs.Grammar.Reading

/-!
# How far readers look

How a reader ends depends on the tokens that it has read and on the one behind them. A second
reader, which differs from the first in its budget at most, ends in the same way in front of the
same tokens, whatever else is ahead of it. There is one exception: the target of an assignment is
judged after its value has been read, so a fault in the value, which may be further ahead, takes the
place of the fault that is reported at the sign of assignment. For every way of putting readers
together, and for each reader of one token, there is one rule.

- `Cursor.SameNext`: the same token is next, or the same end of input.
- `Cursor.Retraces`: another cursor in front of the same tokens.
- `Parser.Settles`: how a reader ends is settled by what it has read and by what is next.
- `Settles.bind`, `Settles.expect_bind`, `Settles.accept?_bind_late` and the like: the rules.
-/

namespace Script

/-! ## The same tokens ahead -/

namespace Cursor

/-- At `c` and `e` the same token, or the same end of input, is next. -/
structure SameNext (c e : Cursor) : Prop where
  head : c.ahead.head? = e.ahead.head?
  pos : c.pos = e.pos

/-- From `e`, with at most `room` tokens ahead, the tokens `read` lead to `e'`, and the same is next
there as at `c'`. -/
structure Retraces (room : Nat) (read : List Token) (c' e e' : Cursor) : Prop where
  few : e.ahead.length ≤ room
  reads : e.Reads read e'
  next : c'.SameNext e'

variable {room : Nat} {first second read : List Token} {c c₁ c' e e' : Cursor} {t : Token}
  {kind : TokenKind}

theorem SameNext.refl (c : Cursor) : c.SameNext c := ⟨rfl, rfl⟩

/-- Where the same tokens are read and then the same is next, the same is next before. -/
theorem SameNext.of_reads (h : c'.SameNext e') (hc : c.Reads read c') (he : e.Reads read e') :
    c.SameNext e := by
  cases read with
  | nil =>
    obtain rfl := reads_nil_iff.1 hc
    obtain rfl := reads_nil_iff.1 he
    exact h
  | cons t rest =>
    obtain ⟨c₁, hc, -⟩ := hc.cons
    obtain ⟨e₁, he, -⟩ := he.cons
    exact ⟨hc.head?.trans he.head?.symm, hc.pos_eq.trans he.pos_eq.symm⟩

theorem SameNext.nextIs_iff (h : c.SameNext e) : c.NextIs kind ↔ e.NextIs kind := by
  unfold NextIs
  rw [h.head]

theorem Reads.length_eq (h : c.Reads read c') :
    c.ahead.length = read.length + c'.ahead.length := by
  rw [h.ahead, List.length_append]

theorem Retraces.sameNext (h : Retraces room read c' e e') (hc : c.Reads read c') :
    c.SameNext e :=
  h.next.of_reads hc h.reads

/-- Tokens that are read in two parts are retraced part by part. -/
theorem Retraces.append (h : Retraces room (first ++ second) c' e e')
    (hc : c₁.Reads second c') :
    ∃ e₁, Retraces room first c₁ e e₁ ∧ Retraces (room - first.length) second c' e₁ e' := by
  obtain ⟨e₁, hfirst, hsecond⟩ := h.reads.append
  have hlength := hfirst.length_eq
  have hfew := h.few
  exact ⟨e₁, ⟨h.few, hfirst, h.next.of_reads hc hsecond⟩, ⟨by omega, hsecond, h.next⟩⟩

theorem reads_of_head? (h : c.ahead.head? = some t) :
    c.Reads [t] { c with ahead := c.ahead.tail } := by
  obtain ⟨_ | ⟨u, rest⟩, stop⟩ := c
  · cases h
  · obtain rfl := Option.some.inj h
    exact reads_append [u] rest stop

end Cursor

namespace Parser

/-- Within `room` tokens, how the reader `p` ends in front of `c` is settled by the tokens that it
reads, at least `least` of them if it succeeds, and by what is next behind them: the reader `q` ends
in the same way in front of the same tokens. Where `p` reports an invalid target, `q` may report
another fault, but not in front of `c` itself. -/
structure Settles {α : Type} (least room : Nat) (p q : Parser α) (c : Cursor) : Prop where
  ok : c.ahead.length ≤ room → ∀ {a c'}, p c = .ok a c' →
    ∃ read, least ≤ read.length ∧ c.Reads read c' ∧
      ∀ e e', Cursor.Retraces room read c' e e' → q e = .ok a e'
  error : c.ahead.length ≤ room → ∀ {d c₁}, p c = .error d c₁ →
    ∃ read c', c.Reads read c' ∧ d.pos = c'.pos ∧
      ∀ e e', Cursor.Retraces room read c' e e' →
        ∃ d' e₁, q e = .error d' e₁ ∧ ((d.fault = .invalidTarget → e = c) → d' = d)

variable {α β : Type} {least room : Nat} {p q p' q' : Parser α} {f g : α → Parser β}
  {c c₁ : Cursor} {t : Token} {kind : TokenKind} {sign : Punct} {what : Expectation}

/-- In front of the same cursor both readers report the same fault. -/
theorem Settles.error_self (h : Settles least room p q c) (hc : c.ahead.length ≤ room)
    {d : Diagnostic} (hp : p c = .error d c₁) : ∃ c₂, q c = .error d c₂ := by
  obtain ⟨read, c', hread, -, hq⟩ := h.error hc hp
  obtain ⟨d', c₂, herror, hsame⟩ := hq c c' ⟨hc, hread, .refl c'⟩
  obtain rfl := hsame fun _ => rfl
  exact ⟨c₂, herror⟩

/-! ## Readers put together -/

theorem bind_eq_error_iff {d : Diagnostic} :
    (p >>= f) c = .error d c₁ ↔
      p c = .error d c₁ ∨ ∃ a c', p c = .ok a c' ∧ f a c' = .error d c₁ := by
  show EStateM.bind p f c = _ ↔ _
  unfold EStateM.bind
  cases p c with
  | ok a c' =>
    constructor
    · intro h
      exact .inr ⟨a, c', rfl, h⟩
    · rintro (h | ⟨a', c'', hp, hf⟩)
      · cases h
      · cases hp
        exact hf
  | error d' c' => simp

theorem Settles.pure (a : α) : Settles 0 room (Pure.pure a) (Pure.pure a) c where
  ok _ _ c' h := by
    obtain ⟨rfl, rfl⟩ := pure_eq_ok_iff.1 h
    refine ⟨[], Nat.le_refl _, .refl c, fun e e' he => ?_⟩
    obtain rfl := Cursor.reads_nil_iff.1 he.reads
    rfl
  error _ _ _ h := nomatch h

/-- What is settled about a reader that has to read something is settled. -/
theorem Settles.weaken (h : Settles 1 room p q c) : Settles 0 room p q c where
  ok hc _ _ hp := by
    obtain ⟨read, -, hread, hq⟩ := h.ok hc hp
    exact ⟨read, Nat.zero_le _, hread, hq⟩
  error := h.error

/-- A reader that reads something, and another behind it with less room. -/
theorem Settles.bind (hp : Settles 1 room p q c)
    (hf : ∀ a c' room', p c = .ok a c' → room' < room → Settles 0 room' (f a) (g a) c') :
    Settles 1 room (p >>= f) (q >>= g) c where
  ok hc b c' h := by
    obtain ⟨a, c₁, hok, h⟩ := bind_eq_ok_iff.1 h
    obtain ⟨first, hleast, hfirst, hq⟩ := hp.ok hc hok
    have hlength := hfirst.length_eq
    have hrest := hf a c₁ (room - first.length) hok (by omega)
    obtain ⟨second, -, hsecond, hg⟩ := hrest.ok (by omega) h
    refine ⟨first ++ second, ?_, hfirst.trans hsecond, fun e e' he => ?_⟩
    · rw [List.length_append]
      omega
    · obtain ⟨e₁, he₁, he₂⟩ := he.append hsecond
      exact bind_eq_ok_iff.2 ⟨a, e₁, hq e e₁ he₁, hg e₁ e' he₂⟩
  error hc d c₂ h := by
    rcases bind_eq_error_iff.1 h with h | ⟨a, c₁, hok, h⟩
    · obtain ⟨read, c', hread, hpos, hq⟩ := hp.error hc h
      refine ⟨read, c', hread, hpos, fun e e' he => ?_⟩
      obtain ⟨d', e₁, herror, hsame⟩ := hq e e' he
      exact ⟨d', e₁, bind_eq_error_iff.2 (.inl herror), hsame⟩
    · obtain ⟨first, hleast, hfirst, hq⟩ := hp.ok hc hok
      have hlength := hfirst.length_eq
      have hrest := hf a c₁ (room - first.length) hok (by omega)
      obtain ⟨second, c', hsecond, hpos, hg⟩ := hrest.error (by omega) h
      refine ⟨first ++ second, c', hfirst.trans hsecond, hpos, fun e e' he => ?_⟩
      obtain ⟨e₁, he₁, he₂⟩ := he.append hsecond
      obtain ⟨d', e₂, herror, hsame⟩ := hg e₁ e' he₂
      refine ⟨d', e₂, bind_eq_error_iff.2 (.inr ⟨a, e₁, hq e e₁ he₁, herror⟩), fun hsame' => ?_⟩
      exact hsame fun hfault => (hsame' hfault ▸ he₁.reads).unique hfirst

theorem Settles.map {h : α → β} (hp : Settles 1 room p q c) :
    Settles 1 room (h <$> p) (h <$> q) c := by
  rw [map_eq_pure_bind, map_eq_pure_bind]
  exact hp.bind fun a c' room' _ _ => .pure (h a)

theorem Settles.ite {P : Prop} [Decidable P] (hp : Settles least room p q c)
    (hp' : Settles least room p' q' c) :
    Settles least room (if P then p else p') (if P then q else q') c := by
  split
  · exact hp
  · exact hp'

/-- Readers that do the same as others, by what is next. -/
theorem Settles.congr (hp : p c = p' c) (hq : ∀ e, c.SameNext e → q e = q' e)
    (h : Settles least room p' q' c) : Settles least room p q c where
  ok hc a c' hok := by
    obtain ⟨read, hleast, hread, hsame⟩ := h.ok hc (hp.symm.trans hok)
    refine ⟨read, hleast, hread, fun e e' he => ?_⟩
    exact (hq e (he.sameNext hread)).trans (hsame e e' he)
  error hc d c₁ herror := by
    obtain ⟨read, c', hread, hpos, hsame⟩ := h.error hc (hp.symm.trans herror)
    refine ⟨read, c', hread, hpos, fun e e' he => ?_⟩
    rw [hq e (he.sameNext hread)]
    exact hsame e e' he

/-! ## Readers that never succeed -/

/-- A reader that is refused at the next token. -/
theorem Settles.refuse {d : Diagnostic} (hp : p c = .error d c₁) (hpos : d.pos = c.pos)
    (hq : ∀ e, c.SameNext e → ∃ e₁, q e = .error d e₁) : Settles least room p q c where
  ok _ _ _ h := by
    rw [hp] at h
    cases h
  error _ d' c₂ h := by
    rw [hp] at h
    cases h
    refine ⟨[], c, .refl c, hpos, fun e e' he => ?_⟩
    obtain ⟨e₁, herror⟩ := hq e (he.sameNext (.refl c))
    exact ⟨d, e₁, herror, fun _ => rfl⟩

theorem Settles.fail {fault : Fault} :
    Settles least room (fail fault : Parser α) (fail fault) c := by
  refine .refuse (d := ⟨fault, c.pos⟩) rfl rfl fun e he => ⟨e, ?_⟩
  rw [he.pos]
  rfl

/-- What is shown of the next token where nothing of the grammar begins with it. -/
theorem unexpected_eq (c : Cursor) :
    (unexpected : Parser α) c =
      .error ⟨.unexpectedToken ((c.ahead.head?.map (·.lexeme)).getD "end of input"), c.pos⟩ c := by
  obtain ⟨_ | ⟨t, rest⟩, stop⟩ := c <;> rfl

theorem Settles.unexpected :
    Settles least room (Parser.unexpected : Parser α) Parser.unexpected c := by
  refine .refuse (unexpected_eq c) rfl fun e he => ⟨e, ?_⟩
  rw [unexpected_eq, he.head, he.pos]

/-! ## What is next, and what follows -/

/-- A reader that only looks at what is next. -/
theorem Settles.look_bind {x : Parser α} {view : Cursor → α} (hx : ∀ e, x e = .ok (view e) e)
    (hview : ∀ e, c.SameNext e → view e = view c)
    (h : Settles least room (f (view c)) (g (view c)) c) :
    Settles least room (x >>= f) (x >>= g) c := by
  refine .congr ?_ (fun e he => ?_) h
  · show EStateM.bind x f c = _
    unfold EStateM.bind
    rw [hx]
  · show EStateM.bind x g e = _
    unfold EStateM.bind
    rw [hx, hview e he]

theorem Settles.next?_bind {f g : Option Token → Parser β}
    (h : Settles least room (f c.ahead.head?) (g c.ahead.head?) c) :
    Settles least room (next? >>= f) (next? >>= g) c :=
  .look_bind (fun _ => rfl) (fun _ he => he.head.symm) h

theorem Settles.nextKind?_bind {f g : Option TokenKind → Parser β}
    (h : Settles least room (f (c.ahead.head?.map (·.kind))) (g (c.ahead.head?.map (·.kind))) c) :
    Settles least room (nextKind? >>= f) (nextKind? >>= g) c := by
  have hx (e : Cursor) : nextKind? e = .ok (e.ahead.head?.map (·.kind)) e := rfl
  exact .look_bind hx (fun _ he => congrArg (Option.map _) he.head.symm) h

theorem Settles.here_bind {f g : Position → Parser β}
    (h : Settles least room (f c.pos) (g c.pos) c) :
    Settles least room (here >>= f) (here >>= g) c :=
  .look_bind (fun _ => rfl) (fun _ he => he.pos.symm) h

theorem Settles.nextIs_bind {f g : Bool → Parser β}
    (h : ∀ found, Settles least room (f found) (g found) c) :
    Settles least room (nextIs kind >>= f) (nextIs kind >>= g) c := by
  have hx (e : Cursor) : nextIs kind e = .ok (e.ahead.head?.any (·.kind = kind)) e := by
    obtain ⟨_ | ⟨t, rest⟩, stop⟩ := e <;> rfl
  refine .look_bind hx (fun e he => ?_) (h _)
  rw [he.head]

/-! ## One token and what follows it -/

/-- A reader of one given token. -/
theorem Settles.take {a : α} (ht : c.ahead.head? = some t)
    (hp : ∀ e e', e.Reads [t] e' → p e = .ok a e') : Settles 1 room p p c where
  ok _ a' c' h := by
    have hread := Cursor.reads_of_head? ht
    rw [hp _ _ hread] at h
    cases h
    exact ⟨[t], Nat.le_refl _, hread, fun e e' he => hp e e' he.reads⟩
  error _ _ _ h := by
    rw [hp _ _ (Cursor.reads_of_head? ht)] at h
    cases h

theorem Settles.advance_bind {f g : Unit → Parser β} (ht : c.ahead.head? = some t)
    (h : ∀ c' room', c.Reads [t] c' → room' < room → Settles 0 room' (f ()) (g ()) c') :
    Settles 1 room (advance >>= f) (advance >>= g) c := by
  have hadvance (e e' : Cursor) (he : e.Reads [t] e') : advance e = .ok () e' :=
    (advance_eq_ok_iff he.head?).2 he
  refine (Settles.take ht hadvance).bind fun _ c' room' hok hroom => ?_
  exact h c' room' ((advance_eq_ok_iff ht).1 hok) hroom

/-- Moving behind a keyword whose position is kept. -/
theorem Settles.keyword_bind {f g : Position → Parser β} (ht : c.ahead.head? = some t)
    (h : ∀ c' room', room' < room → Settles 0 room' (f t.pos) (g t.pos) c') :
    Settles 1 room (here >>= fun pos => advance >>= fun _ => f pos)
      (here >>= fun pos => advance >>= fun _ => g pos) c := by
  refine .here_bind (.advance_bind ht fun c' room' hread hroom => ?_)
  rw [hread.pos_eq]
  exact h c' room' hroom

theorem accept?_of_reads (h : c.Reads [t] c₁) (hkind : t.kind = kind) :
    accept? kind c = .ok (some t.pos) c₁ :=
  accept?_eq_ok_iff.2 (.inr ⟨t, h, hkind, rfl⟩)

theorem accept?_of_not_nextIs (h : ¬ c.NextIs kind) : accept? kind c = .ok none c :=
  accept?_eq_ok_iff.2 (.inl ⟨h, rfl, rfl⟩)

theorem bind_of_ok {a : α} (h : p c = .ok a c₁) : (p >>= f) c = f a c₁ := by
  show EStateM.bind p f c = _
  unfold EStateM.bind
  rw [h]

/-- Where the token asked for is not next, none is read. -/
theorem Settles.accept?_bind_of_not_nextIs {f g : Option Position → Parser β}
    (hnext : ¬ c.NextIs kind) (h : Settles least room (f none) (g none) c) :
    Settles least room (accept? kind >>= f) (accept? kind >>= g) c := by
  refine .congr (bind_of_ok (accept?_of_not_nextIs hnext)) (fun e he => ?_) h
  exact bind_of_ok (accept?_of_not_nextIs (mt he.nextIs_iff.2 hnext))

theorem Settles.accept?_bind {f g : Option Position → Parser β}
    (hnone : Settles 0 room (f none) (g none) c)
    (hsome : ∀ pos c' room', room' < room → Settles 0 room' (f (some pos)) (g (some pos)) c') :
    Settles 0 room (accept? kind >>= f) (accept? kind >>= g) c := by
  by_cases hnext : c.NextIs kind
  · obtain ⟨t, ht, hkind⟩ := hnext
    have haccept (e e' : Cursor) (he : e.Reads [t] e') : accept? kind e = .ok (some t.pos) e' :=
      accept?_of_reads he hkind
    refine ((Settles.take ht haccept).bind fun found c' room' hok hroom => ?_).weaken
    rw [haccept _ _ (Cursor.reads_of_head? ht)] at hok
    cases hok
    exact hsome t.pos _ room' hroom
  · exact .accept?_bind_of_not_nextIs hnext hnone

theorem exists_error_of_bind_failAt (x : Parser α) (pos : Position) (c : Cursor) :
    ∃ d c', (x >>= fun _ => (failAt pos .invalidTarget : Parser β)) c = .error d c' := by
  cases h : (x >>= fun _ => (failAt pos .invalidTarget : Parser β)) c with
  | ok b c' =>
    obtain ⟨_, _, -, h⟩ := bind_eq_ok_iff.1 h
    exact (failAt_ne_ok h).elim
  | error d c' => exact ⟨d, c', rfl⟩

/-- Behind a sign of assignment whose target is invalid, the value is read before the fault at the
sign is reported. The sign settles that reading fails, and not how. -/
theorem Settles.accept?_bind_late {f g : Option Position → Parser β} {x y : Parser α}
    (hf : ∀ pos, f (some pos) = x >>= fun _ => failAt pos .invalidTarget)
    (hg : ∀ pos, g (some pos) = y >>= fun _ => failAt pos .invalidTarget)
    (hnone : Settles 0 room (f none) (g none) c)
    (hsome : ∀ c' room', room' < room → Settles 1 room' x y c') :
    Settles 0 room (accept? kind >>= f) (accept? kind >>= g) c := by
  by_cases hnext : c.NextIs kind
  · obtain ⟨t, ht, hkind⟩ := hnext
    have hread := Cursor.reads_of_head? ht
    have hlength := hread.length_eq
    rw [List.length_singleton] at hlength
    generalize hc₁ : ({ c with ahead := c.ahead.tail } : Cursor) = c₁ at hread hlength
    have hfail (h : Option Position → Parser β) (z : Parser α)
        (hh : ∀ pos, h (some pos) = z >>= fun _ => failAt pos .invalidTarget) {e e₁ : Cursor}
        (he : e.Reads [t] e₁) : (accept? kind >>= h) e =
          (z >>= fun _ => failAt t.pos .invalidTarget) e₁ := by
      rw [bind_of_ok (accept?_of_reads he hkind), hh]
    refine ⟨fun _ _ _ h => ?_, fun hc d c₂ h => ?_⟩
    · rw [hfail f x hf hread] at h
      obtain ⟨_, _, -, h⟩ := bind_eq_ok_iff.1 h
      exact (failAt_ne_ok h).elim
    · rw [hfail f x hf hread] at h
      rcases bind_eq_error_iff.1 h with h | ⟨a, c₃, hok, h⟩
      · have hx := hsome c₁ (room - 1) (by omega)
        obtain ⟨read, c', hvalue, hpos, hy⟩ := hx.error (by omega) h
        refine ⟨[t] ++ read, c', hread.trans hvalue, hpos, fun e e' he => ?_⟩
        obtain ⟨e₁, he₁, he₂⟩ := he.append hvalue
        obtain ⟨d', e₂, herror, hsame⟩ := hy e₁ e' he₂
        refine ⟨d', e₂, ?_, fun hsame' => hsame fun hfault => ?_⟩
        · rw [hfail g y hg he₁.reads]
          exact bind_eq_error_iff.2 (.inl herror)
        · exact (hsame' hfault ▸ he₁.reads).unique hread
      · cases h
        refine ⟨[], c, .refl c, hread.pos_eq.symm, fun e e' he => ?_⟩
        have he₁ := Cursor.reads_of_head? ((he.sameNext (.refl c)).head.symm.trans ht)
        rw [hfail g y hg he₁]
        obtain ⟨d', e₂, hend⟩ :=
          exists_error_of_bind_failAt y t.pos { e with ahead := e.ahead.tail }
        refine ⟨d', e₂, hend, fun hsame => ?_⟩
        -- in front of the same tokens the second reader reads the value as well
        obtain rfl := hsame rfl
        obtain rfl := he₁.unique hread
        obtain ⟨read, -, hvalue, hy⟩ := (hsome _ (room - 1) (by omega)).ok (by omega) hok
        rw [bind_of_ok (hy _ _ ⟨by omega, hvalue, .refl _⟩)] at hend
        cases hend
        rfl
  · exact .accept?_bind_of_not_nextIs hnext hnone

/-- Where the sign asked for is not next, it is missing. -/
theorem expect_of_not_nextIs (h : ¬ c.NextIs (.punct sign)) :
    expect sign what c = .error ⟨.missing what, c.pos⟩ c := by
  obtain ⟨_ | ⟨t, rest⟩, stop⟩ := c
  · rfl
  · exact if_neg fun hkind => h (Cursor.nextIs_cons_iff.2 hkind)

theorem Settles.expect_bind {f g : Position → Parser β}
    (h : ∀ pos c' room', room' < room → Settles 0 room' (f pos) (g pos) c') :
    Settles 1 room (expect sign what >>= f) (expect sign what >>= g) c := by
  by_cases hnext : c.NextIs (.punct sign)
  · obtain ⟨t, ht, hkind⟩ := hnext
    have hexpect (e e' : Cursor) (he : e.Reads [t] e') : expect sign what e = .ok t.pos e' :=
      expect_eq_ok_iff.2 ⟨t, he, hkind, rfl⟩
    exact (Settles.take ht hexpect).bind fun pos c' room' _ hroom => h pos c' room' hroom
  · refine .refuse (bind_eq_error_iff.2 (.inl (expect_of_not_nextIs hnext))) rfl fun e he => ⟨e, ?_⟩
    rw [he.pos]
    exact bind_eq_error_iff.2 (.inl (expect_of_not_nextIs (mt he.nextIs_iff.2 hnext)))

/-- Where no identifier is next, one is missing. -/
theorem expectIdent_of_not_nextIs (h : ∀ name, ¬ c.NextIs (.ident name)) :
    expectIdent what c = .error ⟨.missing what, c.pos⟩ c := by
  obtain ⟨_ | ⟨⟨kind, lexeme, pos⟩, rest⟩, stop⟩ := c
  · rfl
  · cases kind with
    | ident name => exact (h name (Cursor.nextIs_cons_iff.2 rfl)).elim
    | _ => rfl

theorem Settles.expectIdent_bind {f g : String → Parser β}
    (h : ∀ name c' room', c.NextIs (.ident name) → room' < room →
      Settles 0 room' (f name) (g name) c') :
    Settles 1 room (expectIdent what >>= f) (expectIdent what >>= g) c := by
  by_cases hnext : ∃ name, c.NextIs (.ident name)
  · obtain ⟨name, hnext⟩ := hnext
    obtain ⟨t, ht, hkind⟩ := hnext
    have hident (e e' : Cursor) (he : e.Reads [t] e') : expectIdent what e = .ok name e' :=
      expectIdent_eq_ok_iff.2 ⟨t, he, hkind⟩
    refine (Settles.take ht hident).bind fun name' c' room' hok hroom => ?_
    rw [hident _ _ (Cursor.reads_of_head? ht)] at hok
    cases hok
    exact h name _ room' ⟨t, ht, hkind⟩ hroom
  · rw [not_exists] at hnext
    refine .refuse (bind_eq_error_iff.2 (.inl (expectIdent_of_not_nextIs hnext))) rfl
      fun e he => ⟨e, ?_⟩
    rw [he.pos]
    refine bind_eq_error_iff.2 (.inl (expectIdent_of_not_nextIs fun name => ?_))
    exact mt he.nextIs_iff.2 (hnext name)

end Parser

end Script
