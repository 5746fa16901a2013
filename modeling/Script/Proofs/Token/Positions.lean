import Script.Position
import Mathlib.Data.List.Basic

/-!
# Positions and bytes

A position is reached by advancing over characters. It is also what counting says: the line is one
more than the line feeds among the bytes before it, the column one more than the bytes behind the
last of these line feeds.

- `utf8Bytes`: the bytes of a stretch of text.
- `newlineByte_mem_utf8EncodeChar_iff`: among all characters only a line feed has the byte of a
  line feed in its UTF-8 form.
- `Position.behind`: the position behind a stretch of text, by counting.
- `Position.advanceAll_start`: advancing over a text reaches the position that counting gives.
-/

namespace Script

/-! ## The bytes of a text -/

/-- The bytes of the UTF-8 form of a stretch of text. -/
def utf8Bytes (cs : List Char) : List UInt8 :=
  (String.ofList cs).toUTF8.data.toList

/-- The byte of a line feed. -/
def newlineByte : UInt8 := 10

theorem utf8Bytes_eq_flatMap (cs : List Char) :
    utf8Bytes cs = cs.flatMap String.utf8EncodeChar := by
  simp [utf8Bytes, List.utf8Encode]

theorem utf8Bytes_concat (cs : List Char) (c : Char) :
    utf8Bytes (cs ++ [c]) = utf8Bytes cs ++ String.utf8EncodeChar c := by
  simp only [utf8Bytes_eq_flatMap, List.flatMap_append, List.flatMap_singleton]

/-- The continuation bytes and the leading bytes of longer forms are all above the ASCII range. -/
theorem newlineByte_mem_utf8EncodeChar_iff (c : Char) :
    newlineByte ∈ String.utf8EncodeChar c ↔ c = '\n' := by
  constructor
  · intro h
    have hc : c.val.toNat = 10 := by
      unfold String.utf8EncodeChar newlineByte at h
      dsimp only at h
      split_ifs at h <;>
        simp only [List.mem_cons, List.not_mem_nil, or_false, ← UInt8.toNat_inj,
          UInt8.toNat_ofNat', UInt8.reduceToNat] at h <;> omega
    exact Char.ext (UInt32.toNat_inj.1 hc)
  · rintro rfl
    decide

/-! ## Positions by counting -/

namespace Position

/-- The position behind the stretch `before` at the beginning of a text, by counting its bytes. -/
def behind (before : List Char) : Position where
  line := 1 + (utf8Bytes before).count newlineByte
  column := 1 + ((utf8Bytes before).reverse.takeWhile (· ≠ newlineByte)).length

theorem behind_nil : behind [] = start := rfl

/-- One more character moves the counted position as it moves the reached one. -/
theorem behind_concat (before : List Char) (c : Char) :
    behind (before ++ [c]) = (behind before).advance c := by
  by_cases hc : c = '\n'
  · subst hc
    have hbytes : String.utf8EncodeChar '\n' = [newlineByte] := by decide
    simp [behind, utf8Bytes_concat, hbytes, Nat.add_assoc]
  · have hnone : newlineByte ∉ String.utf8EncodeChar c :=
      fun h => hc ((newlineByte_mem_utf8EncodeChar_iff c).1 h)
    have hcount : (String.utf8EncodeChar c).count newlineByte = 0 := List.count_eq_zero.2 hnone
    have htake : ((String.utf8EncodeChar c).reverse ++ (utf8Bytes before).reverse).takeWhile
        (· ≠ newlineByte) = (String.utf8EncodeChar c).reverse ++
          (utf8Bytes before).reverse.takeWhile (· ≠ newlineByte) := by
      refine List.takeWhile_append_of_pos fun b hb => ?_
      have : b ≠ newlineByte := fun h => hnone (h ▸ List.mem_reverse.1 hb)
      simpa using this
    rw [advance_of_ne hc]
    simp only [behind, utf8Bytes_concat, List.count_append, hcount, List.reverse_append, htake,
      List.length_append, List.length_reverse, String.length_utf8EncodeChar, Nat.add_zero,
      mk.injEq, true_and]
    omega

theorem behind_append (before cs : List Char) :
    behind (before ++ cs) = (behind before).advanceAll cs := by
  induction cs generalizing before with
  | nil => simp
  | cons c cs ih =>
    have hsplit : before ++ c :: cs = before ++ [c] ++ cs := by simp
    rw [hsplit, ih, behind_concat, advanceAll_cons]

/-- Advancing over a text reaches the position that counting its bytes gives. -/
theorem advanceAll_start (cs : List Char) : start.advanceAll cs = behind cs := by
  rw [← behind_nil, ← behind_append, List.nil_append]

end Position

end Script
