import Script.Proofs.Grammar.Deciding

/-!
# Which tokens can be completed

Where a reader fails, the tokens it has read are the beginning of something that it reads: the fault
is at the first token with which nothing can be begun any more. The exception is the target of an
assignment, which is judged after its value. A fault in the value is reported instead, although
nothing begins with the target and the sign of assignment behind it. For every way of putting
readers together there is one rule, as for what settles the end of a reader.

- `Completable`: tokens with which a stretch of tokens of a given kind begins.
- `Parser.Spoils`: a sign of assignment among the tokens is the first that is wrong.
- `Parser.Completes`: what a reader has read where it fails can be completed, or is spoiled.
- `Completes.bind`, `Completes.expect_bind`, `Completes.accept?_bind_late` and the like: the rules.
-/

namespace Script

/-- Some stretch of tokens of which `L` holds begins with the tokens `read`. -/
def Completable (L : List Token → Prop) (read : List Token) : Prop := ∃ rest, L (read ++ rest)

theorem completable_nil_of {L : List Token → Prop} {read : List Token} (h : L read) :
    Completable L [] :=
  ⟨read, h⟩

theorem completable_of {L : List Token → Prop} {read : List Token} (h : L read) :
    Completable L read :=
  ⟨[], (List.append_nil read).symm ▸ h⟩

/-- What begins with more tokens begins with fewer. -/
theorem Completable.of_append {L : List Token → Prop} {read more : List Token}
    (h : Completable L (read ++ more)) : Completable L read := by
  obtain ⟨rest, h⟩ := h
  rw [List.append_assoc] at h
  exact ⟨more ++ rest, h⟩

/-- What can be completed to something of one kind can be completed to something of another, if
this holds of whole stretches. -/
theorem Completable.mono {L M : List Token → Prop} {read : List Token}
    (h : Completable M read) (hM : ∀ read, M read → Completable L read) : Completable L read := by
  obtain ⟨rest, h⟩ := h
  exact (hM _ h).of_append

namespace Cursor

variable {c c' c₁ e e' : Cursor} {first second : List Token} {t : Token}

/-- Between two positions of a cursor stands one stretch of tokens. -/
theorem Reads.read_unique (h : c.Reads first c') (h' : c.Reads second c') : first = second :=
  List.append_cancel_right (h.ahead.symm.trans h'.ahead)

/-- Cursors in front of stretches that begin with the same token have it next. -/
theorem sameNext_of_reads_cons (h : c.Reads (t :: first) c') (h' : e.Reads (t :: second) e') :
    c.SameNext e := by
  obtain ⟨c₁, hc, -⟩ := h.cons
  obtain ⟨e₁, he, -⟩ := h'.cons
  exact ⟨hc.head?.trans he.head?.symm, hc.pos_eq.trans he.pos_eq.symm⟩

theorem sameNext_of_reads_append {after : List Token}
    (h : c.Reads (first ++ t :: after) c') (h' : e.Reads (first ++ [t]) e') : c.SameNext e := by
  cases first with
  | nil => exact sameNext_of_reads_cons h h'
  | cons u first => exact sameNext_of_reads_cons h h'

end Cursor

namespace Parser

/-- Of the tokens `read`, a sign of assignment is the first that is wrong: those before it can be
completed, and within `room` tokens `q` fails wherever it stands behind them. -/
def Spoils {α : Type} (room : Nat) (L : List Token → Prop) (q : Parser α) (read : List Token) :
    Prop :=
  ∃ before eq after, read = before ++ eq :: after ∧ eq.kind = .punct .equal ∧
    Completable L before ∧ ∀ e e', e.ahead.length ≤ room → e.Reads (before ++ [eq]) e' →
      ∃ d e₁, q e = .error d e₁

/-- Where the reader `p` fails in front of `c`, what it has read can be completed to something of
which `L` holds, or is spoiled for `q`. Having too many parameters or arguments does not count. -/
def Completes {α : Type} (room : Nat) (L : List Token → Prop) (p q : Parser α) (c : Cursor) :
    Prop :=
  c.ahead.length ≤ room → ∀ {d c₁}, p c = .error d c₁ → d.fault.code ≠ "P005" →
    ∃ read c', c.Reads read c' ∧ d.pos = c'.pos ∧ (Completable L read ∨ Spoils room L q read)

variable {α β : Type} {room : Nat} {L M : List Token → Prop} {p q p' q' : Parser α}
  {f g : α → Parser β} {c c₁ : Cursor} {t : Token} {kind : TokenKind} {sign : Punct}
  {what : Expectation}

/-! ## Readers put together -/

theorem Completes.pure (a : α) : Completes room L (Pure.pure a) q c := fun _ _ _ h => nomatch h

theorem Completes.mono (h : Completes room M p q c) (hM : ∀ read, M read → Completable L read) :
    Completes room L p q c := by
  intro hc d c₁ herror hcode
  obtain ⟨read, c', hread, hpos, hend⟩ := h hc herror hcode
  refine ⟨read, c', hread, hpos, ?_⟩
  rcases hend with hend | ⟨before, eq, after, hsplit, hkind, hbefore, hq⟩
  · exact .inl (hend.mono hM)
  · exact .inr ⟨before, eq, after, hsplit, hkind, hbefore.mono hM, hq⟩

/-- A reader that reads something, and another behind it with less room. -/
theorem Completes.bind (hs : Settles 1 room p q c) (hp : Completes room M p q c)
    (hM : ∀ read, M read → Completable L read)
    (hf : ∀ a c' read room', p c = .ok a c' → c.Reads read c' → room' < room →
      Completes room' (fun rest => L (read ++ rest)) (f a) (g a) c') :
    Completes room L (p >>= f) (q >>= g) c := by
  intro hc d c₂ h hcode
  rcases bind_eq_error_iff.1 h with h | ⟨a, c₁, hok, h⟩
  · obtain ⟨read, c', hread, hpos, hend⟩ := (hp.mono hM) hc h hcode
    refine ⟨read, c', hread, hpos, ?_⟩
    rcases hend with hend | ⟨before, eq, after, hsplit, hkind, hbefore, hq⟩
    · exact .inl hend
    · refine .inr ⟨before, eq, after, hsplit, hkind, hbefore, fun e e' hroom he => ?_⟩
      obtain ⟨d', e₁, hfail⟩ := hq e e' hroom he
      exact ⟨d', e₁, bind_eq_error_iff.2 (.inl hfail)⟩
  · obtain ⟨first, hleast, hfirst, hq⟩ := hs.ok hc hok
    have hlength := hfirst.length_eq
    have hrest := hf a c₁ first (room - first.length) hok hfirst (by omega)
    obtain ⟨second, c', hsecond, hpos, hend⟩ := hrest (by omega) h hcode
    refine ⟨first ++ second, c', hfirst.trans hsecond, hpos, ?_⟩
    rcases hend with ⟨rest, hend⟩ | ⟨before, eq, after, rfl, hkind, ⟨rest, hbefore⟩, hg⟩
    · exact .inl ⟨rest, (List.append_assoc ..).symm ▸ hend⟩
    · refine .inr ⟨first ++ before, eq, after, (List.append_assoc ..).symm, hkind, ⟨rest, ?_⟩,
        fun e e' hroom he => ?_⟩
      · exact (List.append_assoc ..).symm ▸ hbefore
      · rw [List.append_assoc] at he
        obtain ⟨e₁, he₁, he₂⟩ := he.append
        have hnext := Cursor.sameNext_of_reads_append hsecond he₂
        have hlength' := he₁.length_eq
        obtain ⟨d', e₂, hfail⟩ := hg e₁ e' (by omega) he₂
        exact ⟨d', e₂, bind_eq_error_iff.2 (.inr ⟨a, e₁, hq e e₁ ⟨hroom, he₁, hnext⟩, hfail⟩)⟩

theorem Completes.map {h : α → β} (hp : Completes room L p q c) :
    Completes room L (h <$> p) (h <$> q) c := by
  rw [map_eq_pure_bind, map_eq_pure_bind]
  intro hc d c₁ herror hcode
  rcases bind_eq_error_iff.1 herror with herror | ⟨a, c', -, herror⟩
  · obtain ⟨read, c', hread, hpos, hend⟩ := hp hc herror hcode
    refine ⟨read, c', hread, hpos, hend.imp_right ?_⟩
    rintro ⟨before, eq, after, hsplit, hkind, hbefore, hq⟩
    refine ⟨before, eq, after, hsplit, hkind, hbefore, fun e e' hroom he => ?_⟩
    obtain ⟨d', e₁, hfail⟩ := hq e e' hroom he
    exact ⟨d', e₁, bind_eq_error_iff.2 (.inl hfail)⟩
  · cases herror

theorem Completes.ite {P : Prop} [Decidable P] (hp : Completes room L p q c)
    (hp' : Completes room L p' q' c) :
    Completes room L (if P then p else p') (if P then q else q') c := by
  split
  · exact hp
  · exact hp'

/-- Readers that do the same as others, by what is next. -/
theorem Completes.congr (hp : p c = p' c) (hq : ∀ e, c.SameNext e → q e = q' e)
    (h : Completes room L p' q' c) : Completes room L p q c := by
  intro hc d c₁ herror hcode
  obtain ⟨read, c', hread, hpos, hend⟩ := h hc (hp.symm.trans herror) hcode
  refine ⟨read, c', hread, hpos, hend.imp_right ?_⟩
  rintro ⟨before, eq, after, rfl, hkind, hbefore, hfail⟩
  refine ⟨before, eq, after, rfl, hkind, hbefore, fun e e' hroom he => ?_⟩
  rw [hq e (Cursor.sameNext_of_reads_append hread he)]
  exact hfail e e' hroom he

/-! ## Readers that never succeed -/

/-- A reader that is refused at the next token: nothing is read, so all is still to come. -/
theorem Completes.refuse {d : Diagnostic} (hp : p c = .error d c₁) (hpos : d.pos = c.pos)
    (hL : Completable L []) : Completes room L p q c := by
  intro _ d' c₂ h _
  rw [hp] at h
  cases h
  exact ⟨[], c, .refl c, hpos, .inl hL⟩

theorem Completes.unexpected (hL : Completable L []) :
    Completes room L (Parser.unexpected : Parser α) q c :=
  .refuse (unexpected_eq c) rfl hL

/-- Faults that do not count. -/
theorem Completes.fail_of_code {fault : Fault} (hcode : fault.code = "P005") :
    Completes room L (fail fault : Parser α) q c := by
  intro _ d c₁ h hne
  cases h
  exact absurd hcode hne

/-! ## What is next, and what follows -/

theorem Completes.next?_bind {f g : Option Token → Parser β}
    (h : Completes room L (f c.ahead.head?) (g c.ahead.head?) c) :
    Completes room L (next? >>= f) (next? >>= g) c := by
  refine .congr rfl (fun e he => ?_) h
  rw [he.head]
  rfl

theorem Completes.nextKind?_bind {f g : Option TokenKind → Parser β}
    (h : Completes room L (f (c.ahead.head?.map (·.kind))) (g (c.ahead.head?.map (·.kind))) c) :
    Completes room L (nextKind? >>= f) (nextKind? >>= g) c := by
  refine .congr rfl (fun e he => ?_) h
  rw [he.head]
  rfl

theorem Completes.here_bind {f g : Position → Parser β}
    (h : Completes room L (f c.pos) (g c.pos) c) :
    Completes room L (here >>= f) (here >>= g) c := by
  refine .congr rfl (fun e he => ?_) h
  rw [he.pos]
  rfl

theorem Completes.nextIs_bind {f g : Bool → Parser β}
    (h : ∀ found, Completes room L (f found) (g found) c) :
    Completes room L (nextIs kind >>= f) (nextIs kind >>= g) c := by
  have hx (e : Cursor) : nextIs kind e = .ok (e.ahead.head?.any (·.kind = kind)) e := by
    obtain ⟨_ | ⟨t, rest⟩, stop⟩ := e <;> rfl
  refine .congr (bind_of_ok (hx c)) (fun e he => ?_) (h _)
  rw [bind_of_ok (hx e), he.head]

/-! ## One token and what follows it -/

/-- A reader of one given token, and another behind it with less room. -/
theorem Completes.take_bind {a : α} (ht : c.ahead.head? = some t)
    (hp : ∀ e e', e.Reads [t] e' → p e = .ok a e')
    (h : ∀ c' room', c.Reads [t] c' → room' < room →
      Completes room' (fun rest => L (t :: rest)) (f a) (g a) c') :
    Completes room L (p >>= f) (p >>= g) c := by
  have hread := Cursor.reads_of_head? ht
  have hok := hp _ _ hread
  have hnever : Completes room (fun _ => False) p p c := by
    intro _ d c₁ herror _
    rw [hok] at herror
    cases herror
  refine .bind (.take ht hp) hnever (fun _ h => h.elim) fun a' c' read room' hok' hread' hroom => ?_
  rw [hok] at hok'
  cases hok'
  obtain rfl := hread'.read_unique hread
  exact h _ room' hread hroom

theorem Completes.advance_bind {f g : Unit → Parser β} (ht : c.ahead.head? = some t)
    (h : ∀ c' room', c.Reads [t] c' → room' < room →
      Completes room' (fun rest => L (t :: rest)) (f ()) (g ()) c') :
    Completes room L (advance >>= f) (advance >>= g) c :=
  .take_bind ht (fun _ _ he => (advance_eq_ok_iff he.head?).2 he) h

/-- Moving behind a keyword whose position is kept. -/
theorem Completes.keyword_bind {f g : Position → Parser β} (ht : c.ahead.head? = some t)
    (h : ∀ c' room', room' < room →
      Completes room' (fun rest => L (t :: rest)) (f t.pos) (g t.pos) c') :
    Completes room L (here >>= fun pos => advance >>= fun _ => f pos)
      (here >>= fun pos => advance >>= fun _ => g pos) c := by
  refine .here_bind (.advance_bind ht fun c' room' hread hroom => ?_)
  rw [hread.pos_eq]
  exact h c' room' hroom

theorem Completes.accept?_bind_of_not_nextIs {f g : Option Position → Parser β}
    (hnext : ¬ c.NextIs kind) (h : Completes room L (f none) (g none) c) :
    Completes room L (accept? kind >>= f) (accept? kind >>= g) c := by
  refine .congr (bind_of_ok (accept?_of_not_nextIs hnext)) (fun e he => ?_) h
  exact bind_of_ok (accept?_of_not_nextIs (mt he.nextIs_iff.2 hnext))

theorem Completes.accept?_bind {f g : Option Position → Parser β}
    (hnone : Completes room L (f none) (g none) c)
    (hsome : ∀ t c' room', c.Reads [t] c' → t.kind = kind → room' < room →
      Completes room' (fun rest => L (t :: rest)) (f (some t.pos)) (g (some t.pos)) c') :
    Completes room L (accept? kind >>= f) (accept? kind >>= g) c := by
  by_cases hnext : c.NextIs kind
  · obtain ⟨t, ht, hkind⟩ := hnext
    refine .take_bind ht (fun _ _ he => accept?_of_reads he hkind) fun c' room' hread hroom => ?_
    exact hsome t c' room' hread hkind hroom
  · exact .accept?_bind_of_not_nextIs hnext hnone

/-- Behind a sign of assignment whose target is invalid, a fault in the value is reported, and the
sign spoils what is read. Without a fault in the value, the fault is at the sign. -/
theorem Completes.accept?_bind_late {f g : Option Position → Parser β} {x y : Parser α}
    (hf : ∀ pos, f (some pos) = x >>= fun _ => failAt pos .invalidTarget)
    (hg : ∀ pos, g (some pos) = y >>= fun _ => failAt pos .invalidTarget)
    (hL : Completable L []) (hnone : Completes room L (f none) (g none) c)
    (hsome : ∀ c' room', room' < room → Completes room' M x y c') :
    Completes room L (accept? (.punct .equal) >>= f) (accept? (.punct .equal) >>= g) c := by
  by_cases hnext : c.NextIs (.punct .equal)
  · obtain ⟨t, ht, hkind⟩ := hnext
    have hread := Cursor.reads_of_head? ht
    have hlength := hread.length_eq
    rw [List.length_singleton] at hlength
    intro hc d c₂ h hcode
    rw [bind_of_ok (accept?_of_reads hread hkind), hf] at h
    rcases bind_eq_error_iff.1 h with h | ⟨a, c₃, -, h⟩
    · have hx := hsome { c with ahead := c.ahead.tail } (room - 1) (by omega)
      obtain ⟨read, c', hvalue, hpos, -⟩ := hx (by omega) h hcode
      refine ⟨[t] ++ read, c', hread.trans hvalue, hpos, .inr ⟨[], t, read, rfl, hkind, hL, ?_⟩⟩
      intro e e' _ he
      rw [bind_of_ok (accept?_of_reads he hkind), hg]
      exact exists_error_of_bind_failAt y t.pos e'
    · cases h
      exact ⟨[], c, .refl c, hread.pos_eq.symm, .inl hL⟩
  · exact .accept?_bind_of_not_nextIs hnext hnone

theorem Completes.expect_bind {f g : Position → Parser β} (hL : Completable L [])
    (h : ∀ t c' room', c.Reads [t] c' → t.kind = .punct sign → room' < room →
      Completes room' (fun rest => L (t :: rest)) (f t.pos) (g t.pos) c') :
    Completes room L (expect sign what >>= f) (expect sign what >>= g) c := by
  by_cases hnext : c.NextIs (.punct sign)
  · obtain ⟨t, ht, hkind⟩ := hnext
    have hexpect (e e' : Cursor) (he : e.Reads [t] e') : expect sign what e = .ok t.pos e' :=
      expect_eq_ok_iff.2 ⟨t, he, hkind, rfl⟩
    exact .take_bind ht hexpect fun c' room' hread hroom => h t c' room' hread hkind hroom
  · exact .refuse (bind_eq_error_iff.2 (.inl (expect_of_not_nextIs hnext))) rfl hL

/-- A given sign is the last token read. -/
theorem Completes.expect_pure {b : β} (hL : Completable L []) :
    Completes room L (expect sign what >>= fun _ => Pure.pure b)
      (expect sign what >>= fun _ => Pure.pure b) c :=
  .expect_bind hL fun _ _ _ _ _ _ => .pure b

theorem Completes.expectIdent_bind {f g : String → Parser β} (hL : Completable L [])
    (h : ∀ t name c' room', c.Reads [t] c' → t.kind = .ident name → room' < room →
      Completes room' (fun rest => L (t :: rest)) (f name) (g name) c') :
    Completes room L (expectIdent what >>= f) (expectIdent what >>= g) c := by
  by_cases hnext : ∃ name, c.NextIs (.ident name)
  · obtain ⟨name, hnext⟩ := hnext
    obtain ⟨t, ht, hkind⟩ := hnext
    have hident (e e' : Cursor) (he : e.Reads [t] e') : expectIdent what e = .ok name e' :=
      expectIdent_eq_ok_iff.2 ⟨t, he, hkind⟩
    exact .take_bind ht hident fun c' room' hread hroom => h t name c' room' hread hkind hroom
  · rw [not_exists] at hnext
    exact .refuse (bind_eq_error_iff.2 (.inl (expectIdent_of_not_nextIs hnext))) rfl hL

end Parser

end Script
