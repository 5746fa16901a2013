import Script.Grammar.Cursor
import Script.Proofs.Token.Words

/-!
# Readers that invent no words

A reader that has tokens ahead either reads something of them or says in a diagnostic what is wrong
with them. For every way of putting readers together, and for each reader of one token, one rule
says what words it may use in doing so.

- `Cursor.Within`: the words of the tokens ahead are among given ones.
- `Parser.KeepsTo`: so are the words of the diagnostic that a reader ends with, if it does.
- `Parser.Gives`: so are the names in what it has read, and there are fewer tokens ahead.
- `KeepsTo.bind`, `KeepsTo.unexpected`, `KeepsTo.expect_bind` and the like: the rules.
-/

namespace Script

/-- The words of the tokens ahead, and that for the end of input, are among `W`. -/
structure Cursor.Within (W : String → Prop) (c : Cursor) : Prop where
  ahead : ∀ t ∈ c.ahead, ∀ w ∈ t.words, W w
  stop : W "end of input"

namespace Parser

/-- In front of tokens with words among `W`, the reader `p` ends with a result for which `Q` holds,
or with a diagnostic that shows words among `W` only. -/
def KeepsTo {α : Type} (W : String → Prop) (p : Parser α) (c : Cursor) (Q : α → Cursor → Prop) :
    Prop :=
  c.Within W →
    match p c with
    | .ok a c' => c'.Within W ∧ Q a c'
    | .error d _ => ∀ w ∈ d.fault.words, W w

/-- The names in what has been read are among `W`, and fewer than `bound` tokens are ahead. -/
structure Gives {α : Type} (W : String → Prop) (bound : Nat) (names : α → List String) (a : α)
    (c : Cursor) : Prop where
  names : ∀ w ∈ names a, W w
  fewer : c.ahead.length < bound

variable {α β : Type} {W : String → Prop} {p : Parser α} {f : α → Parser β} {c : Cursor}
  {Q : α → Cursor → Prop} {R : β → Cursor → Prop} {kind : TokenKind} {fault : Fault}

/-! ## Readers put together -/

theorem KeepsTo.pure {a : α} (h : Q a c) : KeepsTo W (Pure.pure a) c Q := fun hc => ⟨hc, h⟩

theorem KeepsTo.bind (hp : KeepsTo W p c Q) (hf : ∀ a c', Q a c' → KeepsTo W (f a) c' R) :
    KeepsTo W (p >>= f) c R := by
  intro hc
  have hend := hp hc
  show match EStateM.bind p f c with
    | .ok a c' => c'.Within W ∧ R a c'
    | .error d _ => ∀ w ∈ d.fault.words, W w
  unfold EStateM.bind
  cases hread : p c with
  | ok a c' =>
    rw [hread] at hend
    exact hf a c' hend.2 hend.1
  | error d c' =>
    rw [hread] at hend
    exact hend

theorem KeepsTo.map {g : α → β} (hp : KeepsTo W p c Q) (hg : ∀ a c', Q a c' → R (g a) c') :
    KeepsTo W (g <$> p) c R := by
  rw [map_eq_pure_bind]
  exact hp.bind fun a c' h => .pure (hg a c' h)

theorem KeepsTo.ite {P : Prop} [Decidable P] {q : Parser α} (hp : KeepsTo W p c Q)
    (hq : KeepsTo W q c Q) : KeepsTo W (if P then p else q) c Q := by
  split
  · exact hp
  · exact hq

/-! ## Readers that never succeed -/

theorem KeepsTo.failAt {pos : Position} (h : ∀ w ∈ fault.words, W w) :
    KeepsTo W (failAt pos fault) c Q :=
  fun _ => h

theorem KeepsTo.fail (h : ∀ w ∈ fault.words, W w) : KeepsTo W (fail fault) c Q := fun _ => h

/-- The token in the wrong place is no string. -/
theorem KeepsTo.unexpected (h : ∀ t ∈ c.ahead.head?, ∀ value, t.kind ≠ .string value) :
    KeepsTo W (unexpected : Parser α) c Q := by
  intro hc
  obtain ⟨_ | ⟨t, rest⟩, stop⟩ := c
  · exact List.forall_mem_singleton.2 hc.stop
  · have hlexeme := Token.lexeme_mem_words (h t rfl)
    exact List.forall_mem_singleton.2 (hc.ahead t List.mem_cons_self _ hlexeme)

/-- At the end of input no token is in the wrong place. -/
theorem KeepsTo.unexpected_of_end (h : c.ahead.head? = none) :
    KeepsTo W (Parser.unexpected : Parser α) c Q := by
  refine .unexpected fun t ht => ?_
  rw [h] at ht
  cases ht

/-! ## One token and what follows it -/

theorem KeepsTo.here_bind {g : Position → Parser β} (h : ∀ pos, KeepsTo W (g pos) c R) :
    KeepsTo W (here >>= g) c R :=
  h c.pos

theorem KeepsTo.next?_bind {g : Option Token → Parser β}
    (hnone : c.ahead.head? = none → KeepsTo W (g none) c R)
    (hsome : ∀ t, c.ahead.head? = some t → (∀ w ∈ t.words, W w) →
      KeepsTo W (g (some t)) c R) :
    KeepsTo W (next? >>= g) c R := by
  intro hc
  obtain ⟨_ | ⟨t, rest⟩, stop⟩ := c
  · exact hnone rfl hc
  · exact hsome t rfl (hc.ahead t List.mem_cons_self) hc

theorem KeepsTo.nextKind?_bind {g : Option TokenKind → Parser β}
    (hnone : KeepsTo W (g none) c R)
    (hsome : ∀ t, c.ahead.head? = some t → KeepsTo W (g (some t.kind)) c R) :
    KeepsTo W (nextKind? >>= g) c R := by
  intro hc
  obtain ⟨_ | ⟨t, rest⟩, stop⟩ := c
  · exact hnone hc
  · exact hsome t rfl hc

theorem KeepsTo.nextIs_bind {g : Bool → Parser β} (h : ∀ found, KeepsTo W (g found) c R) :
    KeepsTo W (nextIs kind >>= g) c R := by
  intro hc
  obtain ⟨_ | ⟨t, rest⟩, stop⟩ := c
  · exact h false hc
  · exact h (t.kind = kind) hc

theorem KeepsTo.advance_bind {g : Unit → Parser β}
    (h : ∀ c', c'.ahead.length = c.ahead.length - 1 → KeepsTo W (g ()) c' R) :
    KeepsTo W (advance >>= g) c R := by
  intro hc
  refine h { c with ahead := c.ahead.tail } List.length_tail ⟨fun t ht => ?_, hc.stop⟩
  exact hc.ahead t (List.mem_of_mem_tail ht)

/-- Behind the first token there are fewer. -/
theorem within_tail {t : Token} {rest : List Token} {stop : Position}
    (h : Cursor.Within W ⟨t :: rest, stop⟩) : Cursor.Within W ⟨rest, stop⟩ :=
  ⟨fun u hu => h.ahead u (List.mem_cons_of_mem _ hu), h.stop⟩

theorem KeepsTo.accept? : KeepsTo W (accept? kind) c fun found c' =>
    (found = none ∧ c' = c) ∨ ∃ pos, found = some pos ∧ c'.ahead.length < c.ahead.length := by
  intro hc
  obtain ⟨_ | ⟨t, rest⟩, stop⟩ := c
  · exact ⟨hc, .inl ⟨rfl, rfl⟩⟩
  · by_cases hkind : t.kind = kind
    · have hread : Parser.accept? kind ⟨t :: rest, stop⟩ = .ok (some t.pos) ⟨rest, stop⟩ :=
        if_pos hkind
      rw [hread]
      exact ⟨within_tail hc, .inr ⟨t.pos, rfl, Nat.lt_succ_self _⟩⟩
    · have hread : Parser.accept? kind ⟨t :: rest, stop⟩ = .ok none ⟨t :: rest, stop⟩ :=
        if_neg hkind
      rw [hread]
      exact ⟨hc, .inl ⟨rfl, rfl⟩⟩

theorem KeepsTo.accept?_bind {g : Option Position → Parser β} (hnone : KeepsTo W (g none) c R)
    (hsome : ∀ pos c', c'.ahead.length < c.ahead.length → KeepsTo W (g (some pos)) c' R) :
    KeepsTo W (Parser.accept? kind >>= g) c R := by
  refine KeepsTo.accept?.bind fun found c' h => ?_
  rcases h with ⟨rfl, rfl⟩ | ⟨pos, rfl, hless⟩
  · exact hnone
  · exact hsome pos c' hless

theorem KeepsTo.expect {sign : Punct} {what : Expectation} (hwhat : ∀ w ∈ what.words, W w) :
    KeepsTo W (expect sign what) c fun _ c' => c'.ahead.length < c.ahead.length := by
  intro hc
  obtain ⟨_ | ⟨t, rest⟩, stop⟩ := c
  · exact hwhat
  · unfold Parser.expect
    by_cases hkind : t.kind = .punct sign
    · simp only [hkind, if_true]
      exact ⟨within_tail hc, Nat.lt_succ_self _⟩
    · simp only [hkind, if_false]
      exact hwhat

theorem KeepsTo.expect_bind {g : Position → Parser β} {sign : Punct} {what : Expectation}
    (hwhat : ∀ w ∈ what.words, W w)
    (h : ∀ pos c', c'.ahead.length < c.ahead.length → KeepsTo W (g pos) c' R) :
    KeepsTo W (Parser.expect sign what >>= g) c R :=
  (KeepsTo.expect hwhat).bind h

/-- The name read is that of an identifier ahead. -/
theorem KeepsTo.expectIdent_bind {g : String → Parser β} {what : Expectation}
    (hwhat : ∀ w ∈ what.words, W w)
    (h : ∀ name c', W name → c'.ahead.length < c.ahead.length → KeepsTo W (g name) c' R) :
    KeepsTo W (expectIdent what >>= g) c R := by
  intro hc
  obtain ⟨_ | ⟨⟨kind, lexeme, pos⟩, rest⟩, stop⟩ := c
  · exact hwhat
  · cases kind with
    | ident name =>
      have hname := hc.ahead _ List.mem_cons_self name (Token.name_mem_words rfl)
      exact h name ⟨rest, stop⟩ hname (Nat.lt_succ_self _) (within_tail hc)
    | _ => exact hwhat

end Parser

theorem Cursor.length_pos_of_head? {c : Cursor} {t : Token} (h : c.ahead.head? = some t) :
    0 < c.ahead.length := by
  rw [List.length_pos_iff]
  rintro hnil
  rw [hnil] at h
  cases h

end Script
