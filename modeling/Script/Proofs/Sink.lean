import Script.Sink

/-!
# Sinks that take all, and sinks that do not

- `Sink.Continues`: a sink keeps what it has taken.
- `Sink.Open`: a sink that takes everything.
- `Sink.cutAt`, `Sink.capped`: sinks that take a number of bytes in all.
- `Sink.Cut`, `writeLine_cut`: a line given to a sink with a limit, beside the same line given to a
  sink that takes all.
-/

namespace Script.Sink

variable {s t u : Sink} {limit : Nat} {reason : ByteArray → List String → String → String}

/-! ## What has been written -/

/-- The sink `t` took more after `s`. -/
def Continues (t s : Sink) : Prop := ∃ more, t.written = s.written ++ more

theorem Continues.refl (s : Sink) : s.Continues s := ⟨.empty, ByteArray.append_empty.symm⟩

theorem Continues.trans (h : u.Continues t) (h' : t.Continues s) : u.Continues s := by
  obtain ⟨more, hmore⟩ := h'
  obtain ⟨rest, hrest⟩ := h
  exact ⟨more ++ rest, by rw [hrest, hmore, ByteArray.append_assoc]⟩

theorem Continues.size_le (h : t.Continues s) : s.written.size ≤ t.written.size := by
  obtain ⟨more, hmore⟩ := h
  rw [hmore, ByteArray.size_append]
  exact Nat.le_add_right ..

/-- Bytes taken once are there for ever. -/
theorem Continues.extract_eq (h : t.Continues s) {n : Nat} (hn : n ≤ s.written.size) :
    t.written.extract 0 n = s.written.extract 0 n := by
  obtain ⟨more, hmore⟩ := h
  rw [hmore, ByteArray.extract_append, Nat.sub_eq_zero_of_le hn, Nat.zero_sub,
    ByteArray.extract_same, ByteArray.append_empty]

theorem continues_write (s : Sink) (text : String) : (s.write text).1.Continues s := by
  unfold write
  split
  · exact .refl s
  · split
    · exact ⟨_, rfl⟩
    · exact ⟨_, rfl⟩

theorem continues_writeLine (s : Sink) (text : String) : (s.writeLine text).1.Continues s := by
  have htext := continues_write s text
  unfold writeLine
  split
  · rename_i t heq
    rw [heq] at htext
    exact (continues_write t "\n").trans htext
  · exact htext

/-! ## Sinks that take all -/

/-- The sink refuses nothing, whatever it is given. -/
def Open (s : Sink) : Prop := ∀ written offered text, s.refusal? written offered text = none

theorem open_new : (new none).Open := fun _ _ _ => rfl

/-- The sink with a text that it has taken whole. -/
def taking (s : Sink) (text : String) : Sink :=
  { s with
    written := s.written ++ text.toUTF8
    offered := if text.isEmpty then s.offered else text :: s.offered }

theorem taking_of_isEmpty {text : String} (h : text.isEmpty = true) : s.taking text = s := by
  obtain rfl := String.isEmpty_iff.1 h
  exact congrArg (fun written => ({ s with written := written } : Sink)) ByteArray.append_empty

theorem Open.taking (h : s.Open) (text : String) : (s.taking text).Open := h

theorem write_open (h : s.Open) (text : String) : s.write text = (s.taking text, none) := by
  by_cases hempty : text.isEmpty = true
  · rw [taking_of_isEmpty hempty, write, if_pos hempty]
  · rw [write, if_neg hempty, h, Sink.taking, if_neg hempty]

theorem writeLine_open (h : s.Open) (text : String) :
    s.writeLine text = ((s.taking text).taking "\n", none) := by
  rw [writeLine, write_open h]
  exact write_open (h.taking text) "\n"

/-! ## Sinks with a limit -/

/-- What a sink refuses that takes `limit` bytes in all. The text that crosses the limit is cut
there, and nothing is taken of those that follow. -/
def cutAt (limit : Nat) (reason : ByteArray → List String → String → String)
    (written : ByteArray) (offered : List String) (text : String) : Option Refusal :=
  if text.utf8ByteSize ≤ limit - written.size then none
  else some ⟨limit - written.size, reason written offered text⟩

/-- The sink, refusing from now on what `rule` refuses. -/
def under (rule : ByteArray → List String → String → Option Refusal) (s : Sink) : Sink :=
  { s with refusal? := rule }

/-- A sink to which nothing has been written, and which takes `limit` bytes in all. -/
def capped (limit : Nat) (reason : ByteArray → List String → String → String) : Sink :=
  (new none).under (cutAt limit reason)

theorem new_some_eq_capped (limit : Nat) :
    new (some limit) = capped limit fun _ _ _ => "closed" := rfl

/-- What becomes of a sink with a limit, where a sink that takes all has become `full`. -/
inductive Cut (limit : Nat) (reason : ByteArray → List String → String → String) (full : Sink) :
    Sink × Option String → Prop
  /-- All of it was within the limit. -/
  | fits (h : full.written.size ≤ limit) :
    Cut limit reason full (full.under (cutAt limit reason), none)
  /-- The limit was crossed. -/
  | cut {t : Sink} {why : String} (h : limit < full.written.size)
    (ht : t.written = full.written.extract 0 limit) : Cut limit reason full (t, some why)

theorem Cut.eq_of_le {result : Sink × Option String} (h : Cut limit reason s result)
    (hle : s.written.size ≤ limit) : result = (s.under (cutAt limit reason), none) := by
  cases h with
  | fits _ => rfl
  | cut hlt _ => exact absurd hle (Nat.not_le.2 hlt)

theorem Cut.exists_of_lt {result : Sink × Option String} (h : Cut limit reason s result)
    (hlt : limit < s.written.size) :
    ∃ t why, result = (t, some why) ∧ t.written = s.written.extract 0 limit := by
  cases h with
  | fits hle => exact absurd hle (Nat.not_le.2 hlt)
  | cut _ ht => exact ⟨_, _, rfl, ht⟩

theorem size_taking (s : Sink) (text : String) :
    (s.taking text).written.size = s.written.size + text.utf8ByteSize :=
  ByteArray.size_append

theorem continues_taking (s : Sink) (text : String) : (s.taking text).Continues s := ⟨_, rfl⟩

/-- The first bytes of two texts are all of the first one and the first of the second one. -/
theorem extract_append_of_size_le {a : ByteArray} (b : ByteArray) {n : Nat} (h : a.size ≤ n) :
    (a ++ b).extract 0 n = a ++ b.extract 0 (n - a.size) := by
  rw [ByteArray.extract_append, Nat.zero_sub, ← Nat.max_eq_left h, ByteArray.extract_zero_max_size]

theorem write_cut (hroom : s.written.size ≤ limit) (text : String) :
    Cut limit reason (s.taking text) ((s.under (cutAt limit reason)).write text) := by
  have hsize := size_taking s text
  by_cases hempty : text.isEmpty = true
  · rw [taking_of_isEmpty hempty, write, if_pos hempty]
    exact .fits hroom
  · rw [write, if_neg hempty]
    by_cases hfits : text.utf8ByteSize ≤ limit - s.written.size
    · have hrule : cutAt limit reason s.written s.offered text = none := if_pos hfits
      have hfull : (s.taking text).under (cutAt limit reason) = ⟨s.written ++ text.toUTF8,
          text :: s.offered, cutAt limit reason⟩ := by
        rw [taking, if_neg hempty, under]
      simp only [under, hrule]
      rw [← hfull]
      exact .fits (by omega)
    · have hrule : cutAt limit reason s.written s.offered text =
          some ⟨limit - s.written.size, reason s.written s.offered text⟩ := if_neg hfits
      simp only [under, hrule]
      exact .cut (by omega) (extract_append_of_size_le text.toUTF8 hroom).symm

/-- A line that crosses the limit is cut in its text or before its line feed. -/
theorem writeLine_cut (hroom : s.written.size ≤ limit) (text : String) :
    Cut limit reason ((s.taking text).taking "\n")
      ((s.under (cutAt limit reason)).writeLine text) := by
  have htext : Cut limit reason (s.taking text) ((s.under (cutAt limit reason)).write text) :=
    write_cut hroom text
  unfold writeLine
  generalize (s.under (cutAt limit reason)).write text = result at htext
  cases htext with
  | fits h => exact write_cut h "\n"
  | cut h ht =>
    have hmore := continues_taking (s.taking text) "\n"
    refine .cut (Nat.lt_of_lt_of_le h hmore.size_le) ?_
    rw [ht, hmore.extract_eq (Nat.le_of_lt h)]

end Script.Sink
