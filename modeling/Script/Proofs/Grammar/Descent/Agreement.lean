import Script.Proofs.Grammar.Deciding
import Script.Proofs.Grammar.Descent

/-!
# Readers with and without a bound

A reader of a tape agrees with a reader of a cursor, in front of the same tokens, if it comes back
with the same result or the same diagnostic, at the same place. On the way it has moved on only,
never over an end of input, and far enough if it succeeds. For every way of putting readers
together, and for each reader of one token, there is one rule. What follows a reader that has read
something is needed only where fewer tokens are left.

- `Descent.Agrees`: a reader of a tape comes back, and as a reader of a cursor does.
- `Agrees.bind`, `Agrees.expect_bind`, `Agrees.accept?_bind` and the like: the rules.
-/

namespace Script

namespace Descent

/-- In front of what the tape `t` shows, the reader `p` comes back and ends as `q` does: with the
same result or diagnostic, and in front of the same. It has moved on over tokens none of which is an
end of input, over at least `least` of them if it succeeds. -/
def Agrees {α : Type} (least : Nat) (p : Descent α) (q : Parser α) (t : Tape) : Prop :=
  match q t.cursor with
  | .ok a c =>
    ∃ t', p t = some (.ok a, t') ∧ t.Reaches t' ∧ t'.cursor = c ∧ t.pos + least ≤ t'.pos
  | .error d c => ∃ t', p t = some (.error d, t') ∧ t.Reaches t' ∧ t'.cursor = c

variable {α β : Type} {least : Nat} {p p' : Descent α} {q q' : Parser α} {f : α → Descent β}
  {g : α → Parser β} {t t₁ : Tape} {a : α} {d : Diagnostic} {c : Cursor} {kind : TokenKind}
  {sign : Punct} {what : Expectation} {fault : Fault} {pos : Position}

/-! ## How readers end -/

theorem Agrees.of_ok (hp : p t = some (.ok a, t₁)) (hq : q t.cursor = .ok a t₁.cursor)
    (ht : t.Reaches t₁) (hleast : t.pos + least ≤ t₁.pos) : Agrees least p q t := by
  unfold Agrees
  rw [hq]
  exact ⟨t₁, hp, ht, rfl, hleast⟩

theorem Agrees.of_error (hp : p t = some (.error d, t₁)) (hq : q t.cursor = .error d t₁.cursor)
    (ht : t.Reaches t₁) : Agrees least p q t := by
  unfold Agrees
  rw [hq]
  exact ⟨t₁, hp, ht, rfl⟩

/-- There is no third way to end. -/
theorem Agrees.cases (h : Agrees least p q t) :
    (∃ a t₁, p t = some (.ok a, t₁) ∧ q t.cursor = .ok a t₁.cursor ∧ t.Reaches t₁ ∧
        t.pos + least ≤ t₁.pos) ∨
      ∃ d t₁, p t = some (.error d, t₁) ∧ q t.cursor = .error d t₁.cursor ∧ t.Reaches t₁ := by
  unfold Agrees at h
  split at h
  · rename_i a c hq
    obtain ⟨t₁, hp, ht, rfl, hleast⟩ := h
    exact .inl ⟨a, t₁, hp, hq, ht, hleast⟩
  · rename_i d c hq
    obtain ⟨t₁, hp, ht, rfl⟩ := h
    exact .inr ⟨d, t₁, hp, hq, ht⟩

/-- What a reader of the tape has read, the reader of the cursor has read as well. -/
theorem Agrees.eq_ok (h : Agrees least p q t) (hp : p t = some (.ok a, t₁)) :
    q t.cursor = .ok a t₁.cursor := by
  rcases h.cases with ⟨a', t', hp', hq, -, -⟩ | ⟨d, t', hp', -, -⟩
  · rw [hp] at hp'
    cases hp'
    exact hq
  · rw [hp] at hp'
    cases hp'

theorem Agrees.weaken (h : Agrees 1 p q t) : Agrees 0 p q t := by
  rcases h.cases with ⟨a, t₁, hp, hq, ht, -⟩ | ⟨d, t₁, hp, hq, ht⟩
  · exact .of_ok hp hq ht ht.pos_le
  · exact .of_error hp hq ht

theorem Agrees.congr (h : Agrees least p' q' t) (hp : p t = p' t) (hq : q t.cursor = q' t.cursor) :
    Agrees least p q t := by
  unfold Agrees at h ⊢
  rw [hp, hq]
  exact h

/-! ## Readers put together -/

theorem bind_of_ok (h : p t = some (.ok a, t₁)) : (p >>= f) t = f a t₁ := by
  show Option.bind (p t) _ = _
  rw [h]
  rfl

theorem bind_of_error (h : p t = some (.error d, t₁)) :
    (p >>= f) t = some (.error d, t₁) := by
  show Option.bind (p t) _ = _
  rw [h]
  rfl

/-- How a reader goes on depends on what has been read and on where. -/
theorem bind_congr_left {f : α → Descent β} (h : p t = p' t₁) : (p >>= f) t = (p' >>= f) t₁ := by
  show Option.bind (p t) _ = Option.bind (p' t₁) _
  rw [h]

theorem bind_congr_right {f f' : α → Descent β}
    (h : ∀ a t₁, p t = some (.ok a, t₁) → f a t₁ = f' a t₁) : (p >>= f) t = (p >>= f') t := by
  show Option.bind (p t) _ = Option.bind (p t) _
  cases hp : p t with
  | none => rfl
  | some ending =>
    obtain ⟨_ | a, t₁⟩ := ending
    · rfl
    · exact h a t₁ hp

theorem Agrees.pure (a : α) : Agrees 0 (Pure.pure a) (Pure.pure a) t :=
  .of_ok rfl rfl (.refl t) (Nat.le_refl _)

/-- A reader that reads something, and another behind it with fewer tokens left. -/
theorem Agrees.bind (hp : Agrees 1 p q t)
    (hf : ∀ a t₁, t₁.left < t.left → q t.cursor = .ok a t₁.cursor → Agrees 0 (f a) (g a) t₁) :
    Agrees 1 (p >>= f) (q >>= g) t := by
  rcases hp.cases with ⟨a, t₁, hp, hq, ht, hleast⟩ | ⟨d, t₁, hp, hq, ht⟩
  · have hleft := ht.pos_add_left
    have hbind : (q >>= g) t.cursor = g a t₁.cursor := Parser.bind_of_ok hq
    rcases (hf a t₁ (by omega) hq).cases with
      ⟨b, t₂, hf, hg, ht₂, hle⟩ | ⟨d, t₂, hf, hg, ht₂⟩
    · exact .of_ok ((bind_of_ok hp).trans hf) (hbind.trans hg) (ht.trans ht₂) (by omega)
    · exact .of_error ((bind_of_ok hp).trans hf) (hbind.trans hg) (ht.trans ht₂)
  · exact .of_error (bind_of_error hp) (Parser.bind_eq_error_iff.2 (.inl hq)) ht

theorem Agrees.map {h : α → β} (hp : Agrees 1 p q t) : Agrees 1 (h <$> p) (h <$> q) t := by
  rw [map_eq_pure_bind, map_eq_pure_bind]
  exact hp.bind fun a t₁ _ _ => .pure (h a)

theorem Agrees.ite {P : Prop} [Decidable P] (hp : Agrees least p q t)
    (hp' : Agrees least p' q' t) :
    Agrees least (if P then p else p') (if P then q else q') t := by
  split
  · exact hp
  · exact hp'

/-! ## The next token -/

theorem next_bind_eq {f : Token → Descent β} : (next >>= f) t = f t.next t := rfl

theorem keyword_bind_eq {f : Position → Descent β} :
    (keyword >>= f) t = f t.next.pos t.advance := rfl

/-- The next token of the tape is next for a reader of the cursor, unless it is an end of input. -/
theorem head?_cursor (t : Tape) :
    t.cursor.ahead.head? = if t.next.kind = .eof then none else some t.next := by
  split
  · rename_i hend
    rw [Tape.cursor_of_end hend]
    rfl
  · rename_i hmore
    exact (Tape.reads_advance hmore).head?

theorem pos_cursor (t : Tape) : t.cursor.pos = t.next.pos := by
  by_cases hend : t.next.kind = .eof
  · rw [Tape.cursor_of_end hend]
    rfl
  · exact (Tape.reads_advance hend).pos_eq

theorem nextIs_cursor_iff (hkind : kind.isEof = false) :
    t.cursor.NextIs kind ↔ t.next.kind = kind := by
  unfold Cursor.NextIs
  rw [head?_cursor]
  by_cases hend : t.next.kind = .eof
  · rw [if_pos hend, hend]
    constructor
    · rintro ⟨u, hu, -⟩
      cases hu
    · rintro rfl
      cases hkind
  · rw [if_neg hend]
    simp

theorem left_advance (h : t.next.kind ≠ .eof) : t.advance.left < t.left := by
  have hleft := (Tape.reaches_advance h).pos_add_left
  rw [Tape.pos_advance h] at hleft
  omega

/-! ## Readers that never succeed -/

theorem Agrees.failAt : Agrees least (failAt pos fault : Descent α) (Parser.failAt pos fault) t :=
  .of_error rfl rfl (.refl t)

theorem Agrees.fail : Agrees least (fail fault : Descent α) (Parser.fail fault) t := by
  refine .of_error (d := ⟨fault, t.next.pos⟩) rfl ?_ (.refl t)
  rw [← pos_cursor]
  rfl

theorem Agrees.unexpected : Agrees least (unexpected : Descent α) Parser.unexpected t := by
  refine .of_error rfl ?_ (.refl t)
  rw [Parser.unexpected_eq, head?_cursor, pos_cursor]
  split <;> rfl

/-! ## Looking at the next token -/

theorem Agrees.next?_bind {f : Token → Descent β} {g : Option Token → Parser β}
    (hend : t.next.kind = .eof → Agrees least (f t.next) (g none) t)
    (hmore : t.next.kind ≠ .eof → Agrees least (f t.next) (g (some t.next)) t) :
    Agrees least (next >>= f) (Parser.next? >>= g) t := by
  have hq : (Parser.next? >>= g) t.cursor = g t.cursor.ahead.head? t.cursor := rfl
  rw [head?_cursor] at hq
  by_cases h : t.next.kind = .eof
  · rw [if_pos h] at hq
    exact (hend h).congr next_bind_eq hq
  · rw [if_neg h] at hq
    exact (hmore h).congr next_bind_eq hq

theorem Agrees.nextKind?_bind {f : Token → Descent β} {g : Option TokenKind → Parser β}
    (hend : t.next.kind = .eof → Agrees least (f t.next) (g none) t)
    (hmore : t.next.kind ≠ .eof → Agrees least (f t.next) (g (some t.next.kind)) t) :
    Agrees least (next >>= f) (Parser.nextKind? >>= g) t :=
  .next?_bind (g := fun u : Option Token => g (u.map fun v : Token => v.kind)) hend hmore

theorem Agrees.here_bind {f : Token → Descent β} {g : Position → Parser β}
    (h : Agrees least (f t.next) (g t.next.pos) t) :
    Agrees least (next >>= f) (Parser.here >>= g) t := by
  refine h.congr next_bind_eq ?_
  rw [← pos_cursor]
  rfl

theorem Agrees.nextIs_bind {f : Bool → Descent β} {g : Bool → Parser β}
    (hkind : kind.isEof = false) (h : ∀ found, Agrees least (f found) (g found) t) :
    Agrees least (nextIs kind >>= f) (Parser.nextIs kind >>= g) t := by
  refine (h (t.next.kind = kind)).congr rfl (Parser.bind_of_ok ?_)
  rw [Parser.nextIs_eq_ok_iff, nextIs_cursor_iff hkind]
  exact ⟨decide_eq_true_iff, rfl⟩

/-! ## One token and what follows it -/

/-- A reader of the next token, which is no end of input, and what follows it. -/
theorem Agrees.take_bind (hp : p t = some (.ok a, t.advance)) (hmore : t.next.kind ≠ .eof)
    (hq : ∀ c', t.cursor.Reads [t.next] c' → q t.cursor = .ok a c')
    (h : ∀ t₁, t₁.left < t.left → Agrees 0 (f a) (g a) t₁) : Agrees 1 (p >>= f) (q >>= g) t := by
  have hok := hq _ (Tape.reads_advance hmore)
  have htake : Agrees 1 p q t :=
    .of_ok hp hok (Tape.reaches_advance hmore) (Nat.le_of_eq (Tape.pos_advance hmore).symm)
  refine htake.bind fun a' t₁ hless hok' => ?_
  obtain ⟨rfl, -⟩ := EStateM.Result.ok.inj (hok.symm.trans hok')
  exact h t₁ hless

theorem Agrees.advance_bind {f : Unit → Descent β} {g : Unit → Parser β}
    (hmore : t.next.kind ≠ .eof) (h : ∀ t₁, t₁.left < t.left → Agrees 0 (f ()) (g ()) t₁) :
    Agrees 1 (advance >>= f) (Parser.advance >>= g) t :=
  .take_bind rfl hmore
    (fun _ => (Parser.advance_eq_ok_iff (Tape.reads_advance hmore).head?).2) h

theorem Agrees.keyword_bind {f : Position → Descent β} {g : Position → Parser β}
    (hmore : t.next.kind ≠ .eof)
    (h : ∀ t₁, t₁.left < t.left → Agrees 0 (f t.next.pos) (g t.next.pos) t₁) :
    Agrees 1 (keyword >>= f) (Parser.here >>= fun pos => Parser.advance >>= fun _ => g pos) t := by
  refine (Agrees.advance_bind (f := fun _ => f t.next.pos) (g := fun _ => g t.next.pos) hmore
    h).congr keyword_bind_eq ?_
  rw [← pos_cursor]
  rfl

/-- A kind that is asked for is not that of an end of input. -/
theorem ne_eof (hnext : t.next.kind = kind) (hkind : kind.isEof = false) : t.next.kind ≠ .eof := by
  rintro hend
  rw [← hnext, hend] at hkind
  cases hkind

theorem accept?_of_kind (h : t.next.kind = kind) :
    accept? kind t = some (.ok (some t.next.pos), t.advance) := by
  unfold accept?
  rw [next_bind_eq, if_pos h]
  rfl

theorem accept?_of_ne (h : t.next.kind ≠ kind) : accept? kind t = some (.ok none, t) := by
  unfold accept?
  rw [next_bind_eq, if_neg h]
  rfl

theorem Agrees.accept?_bind {f : Option Position → Descent β} {g : Option Position → Parser β}
    (hkind : kind.isEof = false) (hnone : Agrees 0 (f none) (g none) t)
    (hsome : ∀ pos t₁, t₁.left < t.left → Agrees 0 (f (some pos)) (g (some pos)) t₁) :
    Agrees 0 (accept? kind >>= f) (Parser.accept? kind >>= g) t := by
  by_cases hnext : t.next.kind = kind
  · refine (Agrees.take_bind (accept?_of_kind hnext) (ne_eof hnext hkind) (fun c' h => ?_)
      (hsome t.next.pos)).weaken
    exact Parser.accept?_of_reads h hnext
  · refine hnone.congr (bind_of_ok (accept?_of_ne hnext)) (Parser.bind_of_ok ?_)
    exact Parser.accept?_of_not_nextIs (mt (nextIs_cursor_iff hkind).1 hnext)

theorem Agrees.expect_bind {f : Position → Descent β} {g : Position → Parser β}
    (h : ∀ pos t₁, t₁.left < t.left → Agrees 0 (f pos) (g pos) t₁) :
    Agrees 1 (expect sign what >>= f) (Parser.expect sign what >>= g) t := by
  have hexpect : expect sign what t = if t.next.kind = .punct sign
      then some (.ok t.next.pos, t.advance)
      else some (.error ⟨.missing what, t.next.pos⟩, t) := by
    unfold expect
    rw [next_bind_eq]
    split <;> rfl
  by_cases hnext : t.next.kind = .punct sign
  · rw [if_pos hnext] at hexpect
    refine .take_bind hexpect (ne_eof hnext rfl) (fun c' hread => ?_) (h t.next.pos)
    exact Parser.expect_eq_ok_iff.2 ⟨t.next, hread, hnext, rfl⟩
  · rw [if_neg hnext] at hexpect
    refine .of_error (bind_of_error hexpect) (Parser.bind_eq_error_iff.2 (.inl ?_)) (.refl t)
    rw [← pos_cursor]
    exact Parser.expect_of_not_nextIs (mt (nextIs_cursor_iff rfl).1 hnext)

/-- A sign that has to be there is the last token read. -/
theorem Agrees.expect_pure : Agrees 0 (expect sign what >>= fun _ => Pure.pure a)
    (Parser.expect sign what >>= fun _ => Pure.pure a) t :=
  (Agrees.expect_bind fun _ _ _ => .pure a).weaken

theorem Agrees.expectIdent_bind {f : String → Descent β} {g : String → Parser β}
    (h : ∀ name t₁, t₁.left < t.left → Agrees 0 (f name) (g name) t₁) :
    Agrees 1 (expectIdent what >>= f) (Parser.expectIdent what >>= g) t := by
  by_cases hnext : ∃ name, t.next.kind = .ident name
  · obtain ⟨name, hnext⟩ := hnext
    have hident : expectIdent what t = some (.ok name, t.advance) := by
      unfold expectIdent
      rw [next_bind_eq, hnext]
      rfl
    refine .take_bind hident (ne_eof hnext rfl) (fun c' hread => ?_) (h name)
    exact Parser.expectIdent_eq_ok_iff.2 ⟨t.next, hread, hnext⟩
  · rw [not_exists] at hnext
    have hident : expectIdent what t = some (.error ⟨.missing what, t.next.pos⟩, t) := by
      unfold expectIdent
      rw [next_bind_eq]
      cases hkind : t.next.kind with
      | ident name => exact absurd hkind (hnext name)
      | _ => rfl
    refine .of_error (bind_of_error hident) (Parser.bind_eq_error_iff.2 (.inl ?_)) (.refl t)
    rw [← pos_cursor]
    exact Parser.expectIdent_of_not_nextIs fun name => mt (nextIs_cursor_iff rfl).1 (hnext name)

end Descent

end Script
