/-
  C strings inside a block that is cut in place.

  A tokenizer overwrites the character behind a token with a NUL and goes on behind it.
  `StrIn bs off v` says that the string at offset `off` of the block is `v`. Overwriting one of
  its characters leaves two strings (`StrIn.cut`), and the strings that end before the cut are
  as they were (`StrIn.keep`).
-/
import Librecompat.Lib.Bytes

namespace Librecompat.Lib

/-- The string at offset `off`; `none` when the block ends before the string does. -/
def readStr (bs : List UInt8) (off : Nat) : Option (List UInt8) :=
  (strlen (bs.drop off)).map fun n => (bs.drop off).take n

/-- The string at offset `off` of the block is `v`. -/
def StrIn (bs : List UInt8) (off : Nat) (v : List UInt8) : Prop :=
  0 ∉ v ∧ ∃ a b, bs = a ++ (v ++ 0 :: b) ∧ a.length = off

variable {bs u v : List UInt8} {off : Nat}

theorem StrIn.start (h : 0 ∉ v) : StrIn (v ++ [0]) 0 v := ⟨h, [], [], rfl, rfl⟩

theorem StrIn.read (h : StrIn bs off v) : readStr bs off = some v := by
  obtain ⟨h0, a, b, rfl, rfl⟩ := h
  unfold readStr
  rw [List.drop_left, strlen_append_zero h0, Option.map_some, List.take_left]

theorem StrIn.lt_length (h : StrIn bs off v) : off + v.length < bs.length := by
  obtain ⟨_, a, b, rfl, rfl⟩ := h
  simp only [List.length_append, List.length_cons]
  omega

theorem StrIn.skip (h : StrIn bs off (u ++ v)) : StrIn bs (off + u.length) v := by
  obtain ⟨h0, a, b, rfl, rfl⟩ := h
  refine ⟨fun hm => h0 (List.mem_append_right u hm), a ++ u, b, ?_, List.length_append⟩
  simp

/-- Overwriting the character behind `u` leaves `u` and what was behind that character. -/
theorem StrIn.cut {c : UInt8} (h : StrIn bs off (u ++ c :: v)) :
    StrIn (bs.set (off + u.length) 0) off u ∧
    StrIn (bs.set (off + u.length) 0) (off + u.length + 1) v := by
  obtain ⟨h0, a, b, rfl, rfl⟩ := h
  rw [List.mem_append, List.mem_cons, not_or, not_or] at h0
  have hset : (a ++ ((u ++ c :: v) ++ 0 :: b)).set (a.length + u.length) 0 =
      a ++ (u ++ 0 :: (v ++ 0 :: b)) := by
    rw [List.set_append_right _ _ (by omega), List.append_assoc,
      List.set_append_right _ _ (by omega)]
    simp
  rw [hset]
  refine ⟨⟨h0.1, a, _, rfl, rfl⟩, h0.2.2, a ++ u ++ [0], b, by simp, ?_⟩
  simp only [List.length_append, List.length_singleton]

/-- A string that ends before the cut is as it was. -/
theorem StrIn.keep {i : Nat} (h : StrIn bs off v) (hi : off + v.length < i) :
    StrIn (bs.set i 0) off v := by
  obtain ⟨h0, a, b, rfl, rfl⟩ := h
  refine ⟨h0, a, b.set (i - a.length - v.length - 1) 0, ?_, rfl⟩
  rw [List.set_append_right _ _ (by omega), List.set_append_right _ _ (by omega)]
  obtain ⟨k, hk⟩ : ∃ k, i - a.length - v.length = k + 1 := ⟨i - a.length - v.length - 1, by omega⟩
  rw [hk]
  rfl

end Librecompat.Lib
