import Script.Grammar.Cursor

/-!
# What readers read

A reader that succeeds moves its cursor over some tokens. For every way of putting readers together,
and for each reader of one token, one equivalence says when it succeeds and where the cursor stands
afterwards; nothing else unfolds them.

- `Cursor.Reads`: the tokens between two positions of a cursor.
- `Cursor.NextIs`: the kind of the token ahead.
- `Parser.bind_eq_ok_iff`, `Parser.map_eq_ok_iff`, `Parser.ite_eq_ok_iff`: readers put together.
- `Parser.accept?_bind_eq_ok_iff`, `Parser.expect_bind_eq_ok_iff` and the like: a reader of one
  token and what follows it.
- `Parser.Omissible`, `Parser.Announced`: a part that is left out in front of a given token, and one
  that is read behind a given token only.
-/

namespace Script

theorem TokenKind.isEof_iff {kind : TokenKind} : kind.isEof = true ↔ kind = .eof := by
  cases kind <;> simp [isEof]

/-! ## Moving a cursor -/

namespace Cursor

/-- Between the cursors `c` and `c'` stand exactly the tokens `read`. -/
structure Reads (c : Cursor) (read : List Token) (c' : Cursor) : Prop where
  ahead : c.ahead = read ++ c'.ahead
  stop : c.stop = c'.stop

/-- The next token has a given kind. -/
def NextIs (c : Cursor) (kind : TokenKind) : Prop := ∃ t, c.ahead.head? = some t ∧ t.kind = kind

variable {c c₁ c₂ : Cursor} {first second rest : List Token} {t u : Token} {kind : TokenKind}
  {stop : Position}

theorem Reads.refl (c : Cursor) : c.Reads [] c := ⟨rfl, rfl⟩

theorem Reads.trans (h₁ : c.Reads first c₁) (h₂ : c₁.Reads second c₂) :
    c.Reads (first ++ second) c₂ := by
  constructor
  · rw [h₁.ahead, h₂.ahead, List.append_assoc]
  · exact h₁.stop.trans h₂.stop

/-- What is read in two parts is read part by part. -/
theorem Reads.append (h : c.Reads (first ++ second) c₂) :
    ∃ c₁, c.Reads first c₁ ∧ c₁.Reads second c₂ := by
  refine ⟨⟨second ++ c₂.ahead, c₂.stop⟩, ⟨?_, h.stop⟩, ⟨rfl, rfl⟩⟩
  rw [h.ahead, List.append_assoc]

theorem Reads.cons (h : c.Reads (t :: rest) c₂) : ∃ c₁, c.Reads [t] c₁ ∧ c₁.Reads rest c₂ :=
  Reads.append h

/-- A stretch of tokens is read by a cursor in front of it. -/
theorem reads_append (read rest : List Token) (stop : Position) :
    Reads ⟨read ++ rest, stop⟩ read ⟨rest, stop⟩ :=
  ⟨rfl, rfl⟩

theorem reads_all (read : List Token) (stop : Position) : Reads ⟨read, stop⟩ read ⟨[], stop⟩ :=
  ⟨(List.append_nil read).symm, rfl⟩

/-- What is read and what is left make up what was ahead. -/
theorem Reads.eq (h : c.Reads first c₁) : c = ⟨first ++ c₁.ahead, c₁.stop⟩ := by
  obtain ⟨ahead, stop⟩ := c
  obtain ⟨rfl, rfl⟩ := h
  rfl

/-- What is read says where reading stops. -/
theorem Reads.unique (h₁ : c.Reads first c₁) (h₂ : c.Reads first c₂) : c₁ = c₂ := by
  obtain ⟨ahead₁, stop₁⟩ := c₁
  obtain ⟨ahead₂, stop₂⟩ := c₂
  obtain rfl : stop₁ = stop₂ := h₁.stop.symm.trans h₂.stop
  obtain rfl : ahead₁ = ahead₂ := List.append_cancel_left (h₁.ahead.symm.trans h₂.ahead)
  rfl

@[simp] theorem reads_nil_iff : c.Reads [] c₁ ↔ c = c₁ := by
  constructor
  · intro h
    exact h.eq
  · rintro rfl
    exact Reads.refl c

/-- One token is read if it is the next. -/
@[simp] theorem reads_singleton_iff :
    Reads ⟨t :: rest, stop⟩ [u] c₁ ↔ u = t ∧ ⟨rest, stop⟩ = c₁ := by
  constructor
  · intro h
    obtain ⟨rfl, hrest⟩ := List.cons_eq_cons.1 h.ahead
    obtain ⟨ahead, stop'⟩ := c₁
    obtain rfl : stop = stop' := h.stop
    exact ⟨rfl, congrArg (Cursor.mk · stop) hrest⟩
  · rintro ⟨rfl, rfl⟩
    exact reads_append [u] rest stop

@[simp] theorem not_reads_singleton : ¬ Reads ⟨[], stop⟩ [u] c₁ := by
  intro h
  cases h.ahead

theorem Reads.head? (h : c.Reads [t] c₁) : c.ahead.head? = some t := by
  rw [h.ahead]
  rfl

theorem NextIs.reads (h : c.NextIs kind) : ∃ t c₁, c.Reads [t] c₁ ∧ t.kind = kind := by
  obtain ⟨_ | ⟨t, rest⟩, stop⟩ := c
  · obtain ⟨t, ht, -⟩ := h
    cases ht
  · obtain ⟨u, hu, hkind⟩ := h
    obtain rfl := Option.some.inj hu
    exact ⟨t, ⟨rest, stop⟩, reads_append [t] rest stop, hkind⟩

theorem Reads.pos_eq (h : c.Reads [t] c₁) : c.pos = t.pos := by
  rw [h.eq]
  rfl

@[simp] theorem nextIs_cons_iff : NextIs ⟨t :: rest, stop⟩ kind ↔ t.kind = kind := by
  constructor
  · rintro ⟨u, hu, hkind⟩
    obtain rfl := Option.some.inj hu
    exact hkind
  · intro hkind
    exact ⟨t, rfl, hkind⟩

/-- The next token has one kind only. -/
theorem NextIs.ne {kind' : TokenKind} (h : c.NextIs kind) (hne : kind ≠ kind') :
    ¬ c.NextIs kind' := by
  rintro ⟨u, hu, rfl⟩
  obtain ⟨t, ht, rfl⟩ := h
  obtain rfl := Option.some.inj (ht.symm.trans hu)
  exact hne rfl

theorem Reads.nextIs (h : c.Reads [t] c₁) (hkind : t.kind = kind) : c.NextIs kind :=
  ⟨t, h.head?, hkind⟩

@[simp] theorem not_nextIs_nil : ¬ NextIs ⟨[], stop⟩ kind := by
  rintro ⟨t, ht, -⟩
  cases ht

end Cursor

namespace Parser

variable {α β : Type} {c c' : Cursor} {kind : TokenKind} {sign : Punct} {what : Expectation}
  {pos : Position} {name : String} {a a' : α} {b : β}

/-! ## Readers put together -/

theorem bind_eq_ok_iff {x : Parser α} {f : α → Parser β} :
    (x >>= f) c = .ok b c' ↔ ∃ a c₁, x c = .ok a c₁ ∧ f a c₁ = .ok b c' := by
  show EStateM.bind x f c = _ ↔ _
  unfold EStateM.bind
  cases x c with
  | ok a c₁ =>
    constructor
    · intro h
      exact ⟨a, c₁, rfl, h⟩
    · rintro ⟨a', c₁', hx, hf⟩
      cases hx
      exact hf
  | error d c₁ =>
    constructor
    · intro h
      cases h
    · rintro ⟨a', c₁', hx, -⟩
      cases hx

@[simp] theorem pure_eq_ok_iff : (pure a : Parser α) c = .ok a' c' ↔ a = a' ∧ c = c' := by
  show EStateM.Result.ok a c = _ ↔ _
  rw [EStateM.Result.ok.injEq]

theorem map_eq_ok_iff {x : Parser α} {f : α → β} :
    (f <$> x) c = .ok b c' ↔ ∃ a, x c = .ok a c' ∧ f a = b := by
  show EStateM.map f x c = _ ↔ _
  unfold EStateM.map
  cases x c with
  | ok a c₁ =>
    constructor
    · intro h
      cases h
      exact ⟨a, rfl, rfl⟩
    · rintro ⟨a', hx, rfl⟩
      cases hx
      rfl
  | error d c₁ => simp

/-- A choice between two readers by what has been found out before. -/
theorem ite_eq_ok_iff {found : Bool} {x y : Parser α} :
    (if found then x else y : Parser α) c = .ok a c' ↔
      (found = true ∧ x c = .ok a c') ∨ (found = false ∧ y c = .ok a c') := by
  cases found <;> simp

/-- Looking at the next token leads to a choice by it. -/
theorem next?_bind_eq {f : Option Token → Parser β} : (next? >>= f) c = f c.ahead.head? c := rfl

theorem nextKind?_bind_eq {f : Option TokenKind → Parser β} :
    (nextKind? >>= f) c = f (c.ahead.head?.map (·.kind)) c := rfl

theorem here_bind_eq {f : Position → Parser β} : (here >>= f) c = f c.pos c := rfl

/-! ## Readers that never succeed -/

@[simp] theorem unexpected_ne_ok : (unexpected : Parser α) c ≠ .ok a c' := by
  unfold unexpected
  split <;> exact fun h => nomatch h

@[simp] theorem fail_ne_ok {fault : Fault} : (fail fault : Parser α) c ≠ .ok a c' :=
  fun h => nomatch h

@[simp] theorem failAt_ne_ok {fault : Fault} : (failAt pos fault : Parser α) c ≠ .ok a c' :=
  fun h => nomatch h

/-- A reader that is refused on a condition succeeds only where the condition does not hold. -/
theorem ite_fail_eq_ok_iff {p : Prop} [Decidable p] {fault : Fault} {x : Parser α} :
    (if p then fail fault else x : Parser α) c = .ok a c' ↔ ¬ p ∧ x c = .ok a c' := by
  by_cases h : p <;> simp [h]

theorem ite_failAt_eq_ok_iff {p : Prop} [Decidable p] {fault : Fault} {x : Parser α} :
    (if p then failAt pos fault else x : Parser α) c = .ok a c' ↔ ¬ p ∧ x c = .ok a c' := by
  by_cases h : p <;> simp [h]

/-! ## Readers of one token -/

theorem advance_cons {t : Token} {rest : List Token} {stop : Position} :
    advance ⟨t :: rest, stop⟩ = .ok () ⟨rest, stop⟩ := rfl

/-- In front of a token, moving on reads it. -/
theorem advance_eq_ok_iff {t : Token} (h : c.ahead.head? = some t) :
    advance c = .ok () c' ↔ c.Reads [t] c' := by
  obtain ⟨_ | ⟨u, rest⟩, stop⟩ := c
  · cases h
  · obtain rfl : u = t := Option.some.inj h
    simp [advance, eq_comm]

theorem nextIs_eq_ok_iff {found : Bool} :
    nextIs kind c = .ok found c' ↔ (found = true ↔ c.NextIs kind) ∧ c = c' := by
  obtain ⟨_ | ⟨t, rest⟩, stop⟩ := c
  · cases found <;> simp [nextIs]
  · by_cases hkind : t.kind = kind <;> cases found <;> simp [nextIs, hkind]

/-- A token is moved over and its position given exactly if it has the kind asked for. -/
theorem accept?_eq_ok_iff {o : Option Position} :
    accept? kind c = .ok o c' ↔
      (¬ c.NextIs kind ∧ none = o ∧ c = c') ∨
        ∃ t, c.Reads [t] c' ∧ t.kind = kind ∧ some t.pos = o := by
  obtain ⟨_ | ⟨t, rest⟩, stop⟩ := c
  · simp [accept?]
  · by_cases hkind : t.kind = kind
    · simp [accept?, hkind, and_assoc, and_comm (a := some t.pos = o)]
    · simp [accept?, hkind, and_assoc]

theorem expect_eq_ok_iff :
    expect sign what c = .ok pos c' ↔
      ∃ t, c.Reads [t] c' ∧ t.kind = .punct sign ∧ t.pos = pos := by
  obtain ⟨_ | ⟨t, rest⟩, stop⟩ := c
  · simp [expect]
  · by_cases hkind : t.kind = .punct sign
    · simp [expect, hkind, and_assoc, and_comm (a := t.pos = pos)]
    · simp [expect, hkind, and_assoc]

theorem expectIdent_eq_ok_iff :
    expectIdent what c = .ok name c' ↔ ∃ t, c.Reads [t] c' ∧ t.kind = .ident name := by
  obtain ⟨_ | ⟨⟨kind, lexeme, pos⟩, rest⟩, stop⟩ := c
  · simp [expectIdent]
  · cases kind <;> simp [expectIdent, and_assoc, and_comm]

/-! ## One token and what follows it -/

theorem advance_bind_eq_ok_iff {f : Unit → Parser β} {t : Token} (h : c.ahead.head? = some t) :
    (advance >>= f) c = .ok b c' ↔ ∃ c₁, c.Reads [t] c₁ ∧ f () c₁ = .ok b c' := by
  rw [bind_eq_ok_iff]
  constructor
  · rintro ⟨⟨⟩, c₁, hadvance, hf⟩
    exact ⟨c₁, (advance_eq_ok_iff h).1 hadvance, hf⟩
  · rintro ⟨c₁, ht, hf⟩
    exact ⟨(), c₁, (advance_eq_ok_iff h).2 ht, hf⟩

theorem accept?_bind_eq_ok_iff {f : Option Position → Parser β} :
    (accept? kind >>= f) c = .ok b c' ↔
      (¬ c.NextIs kind ∧ f none c = .ok b c') ∨
        ∃ t c₁, c.Reads [t] c₁ ∧ t.kind = kind ∧ f (some t.pos) c₁ = .ok b c' := by
  rw [bind_eq_ok_iff]
  constructor
  · rintro ⟨o, c₁, haccept, hf⟩
    rcases accept?_eq_ok_iff.1 haccept with ⟨hnext, rfl, rfl⟩ | ⟨t, ht, hkind, rfl⟩
    · exact .inl ⟨hnext, hf⟩
    · exact .inr ⟨t, c₁, ht, hkind, hf⟩
  · rintro (⟨hnext, hf⟩ | ⟨t, c₁, ht, hkind, hf⟩)
    · exact ⟨none, c, accept?_eq_ok_iff.2 (.inl ⟨hnext, rfl, rfl⟩), hf⟩
    · exact ⟨some t.pos, c₁, accept?_eq_ok_iff.2 (.inr ⟨t, ht, hkind, rfl⟩), hf⟩

theorem expect_bind_eq_ok_iff {f : Position → Parser β} :
    (expect sign what >>= f) c = .ok b c' ↔
      ∃ t c₁, c.Reads [t] c₁ ∧ t.kind = .punct sign ∧ f t.pos c₁ = .ok b c' := by
  rw [bind_eq_ok_iff]
  constructor
  · rintro ⟨pos, c₁, hexpect, hf⟩
    obtain ⟨t, ht, hkind, rfl⟩ := expect_eq_ok_iff.1 hexpect
    exact ⟨t, c₁, ht, hkind, hf⟩
  · rintro ⟨t, c₁, ht, hkind, hf⟩
    exact ⟨t.pos, c₁, expect_eq_ok_iff.2 ⟨t, ht, hkind, rfl⟩, hf⟩

/-- A given token is the last one read. -/
theorem expect_pure_eq_ok_iff :
    (expect sign what >>= fun _ => pure a) c = .ok a' c' ↔
      ∃ t, c.Reads [t] c' ∧ t.kind = .punct sign ∧ a = a' := by
  rw [expect_bind_eq_ok_iff]
  refine exists_congr fun t => ?_
  constructor
  · rintro ⟨c₁, ht, hkind, h⟩
    obtain ⟨rfl, rfl⟩ := pure_eq_ok_iff.1 h
    exact ⟨ht, hkind, rfl⟩
  · rintro ⟨ht, hkind, rfl⟩
    exact ⟨c', ht, hkind, rfl⟩

theorem expectIdent_bind_eq_ok_iff {f : String → Parser β} :
    (expectIdent what >>= f) c = .ok b c' ↔
      ∃ t c₁ name, c.Reads [t] c₁ ∧ t.kind = .ident name ∧ f name c₁ = .ok b c' := by
  rw [bind_eq_ok_iff]
  constructor
  · rintro ⟨name, c₁, hname, hf⟩
    obtain ⟨t, ht, hkind⟩ := expectIdent_eq_ok_iff.1 hname
    exact ⟨t, c₁, name, ht, hkind, hf⟩
  · rintro ⟨t, c₁, name, ht, hkind, hf⟩
    exact ⟨name, c₁, expectIdent_eq_ok_iff.2 ⟨t, ht, hkind⟩, hf⟩

/-! ## Parts that may be left out -/

/-- Reading from `c` to `c'` gives `a`: the value `default` and no token if the next token has the
kind `kind`, else what `x` reads. -/
def Omissible (kind : TokenKind) (default : α) (x : Parser α) (c : Cursor) (a : α) (c' : Cursor) :
    Prop :=
  (c.NextIs kind ∧ default = a ∧ c = c') ∨ (¬ c.NextIs kind ∧ x c = .ok a c')

theorem omissible_bind_eq_ok_iff {x : Parser α} {k : α → Parser β} :
    (nextIs kind >>= fun found => if found then pure a >>= k else x >>= k) c = .ok b c' ↔
      ∃ a' c₁, Omissible kind a x c a' c₁ ∧ k a' c₁ = .ok b c' := by
  rw [bind_eq_ok_iff]
  constructor
  · rintro ⟨found, c₁, hnext, h⟩
    obtain ⟨hfound, rfl⟩ := nextIs_eq_ok_iff.1 hnext
    rcases ite_eq_ok_iff.1 h with ⟨rfl, h⟩ | ⟨rfl, h⟩
    · exact ⟨a, c, .inl ⟨hfound.1 rfl, rfl, rfl⟩, h⟩
    · obtain ⟨a', c₁, hx, h⟩ := bind_eq_ok_iff.1 h
      exact ⟨a', c₁, .inr ⟨fun hnext => (nomatch hfound.2 hnext), hx⟩, h⟩
  · rintro ⟨a', c₁, ⟨hnext, rfl, rfl⟩ | ⟨hnext, hx⟩, h⟩
    · exact ⟨true, c, nextIs_eq_ok_iff.2 ⟨by simp [hnext], rfl⟩, h⟩
    · exact ⟨false, c, nextIs_eq_ok_iff.2 ⟨by simp [hnext], rfl⟩, bind_eq_ok_iff.2 ⟨a', c₁, hx, h⟩⟩

/-- Reading from `c` to `c'` gives `o`: nothing if the next token has not the kind `kind`, else what
`x` reads behind this token. -/
def Announced (kind : TokenKind) (x : Parser α) (c : Cursor) (o : Option α) (c' : Cursor) : Prop :=
  (¬ c.NextIs kind ∧ none = o ∧ c = c') ∨
    ∃ t c₁ a, c.Reads [t] c₁ ∧ t.kind = kind ∧ x c₁ = .ok a c' ∧ some a = o

theorem announced_bind_eq_ok_iff {x : Parser α} {k : Option α → Parser β} :
    (accept? kind >>= fun found =>
      match found with
      | none => pure none >>= k
      | some _ => (some <$> x) >>= k) c = .ok b c' ↔
      ∃ o c₁, Announced kind x c o c₁ ∧ k o c₁ = .ok b c' := by
  rw [accept?_bind_eq_ok_iff]
  constructor
  · rintro (⟨hnext, h⟩ | ⟨t, c₁, ht, hkind, h⟩)
    · exact ⟨none, c, .inl ⟨hnext, rfl, rfl⟩, h⟩
    · obtain ⟨o, c₂, hmap, h⟩ := bind_eq_ok_iff.1 h
      obtain ⟨a, hx, rfl⟩ := map_eq_ok_iff.1 hmap
      exact ⟨some a, c₂, .inr ⟨t, c₁, a, ht, hkind, hx, rfl⟩, h⟩
  · rintro ⟨o, c₁, ⟨hnext, rfl, rfl⟩ | ⟨t, c₂, a, ht, hkind, hx, rfl⟩, h⟩
    · exact .inl ⟨hnext, h⟩
    · refine .inr ⟨t, c₂, ht, hkind, ?_⟩
      exact bind_eq_ok_iff.2 ⟨some a, c₁, map_eq_ok_iff.2 ⟨a, hx, rfl⟩, h⟩

end Parser

end Script
