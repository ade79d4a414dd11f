/-
  Blocks as lists: bounds-checked reading, writing and moving, and the string functions of the
  C library.

  An access that leaves the block is undefined behaviour: the result is `none`. `memmove` reads
  the whole source before it writes, so the two ranges may overlap. `resize` is what `realloc`
  does to the contents of a block of bytes. A C string is what a block holds up to the first
  `0`.
-/
import Mathlib.Data.List.Basic

namespace Librecompat.Lib

/-! ## Ranges of a block -/

section Range

variable {α : Type}

/-- The `n` cells from offset `off` on. -/
def readAt (blk : List α) (off n : Nat) : Option (List α) :=
  if off + n ≤ blk.length then some ((blk.drop off).take n) else none

/-- `memcpy (blk + off, bs, n)`, `n` being the length of `bs`. -/
def writeAt (blk : List α) (off : Nat) (bs : List α) : Option (List α) :=
  if off + bs.length ≤ blk.length then
    some (blk.take off ++ bs ++ blk.drop (off + bs.length))
  else none

/-- `memmove (blk + dst, blk + src, n)`. -/
def memmove (blk : List α) (dst src n : Nat) : Option (List α) :=
  (readAt blk src n).bind fun bs => writeAt blk dst bs

theorem readAt_append (a b c : List α) :
    readAt (a ++ b ++ c) a.length b.length = some b := by
  simp [readAt]

theorem writeAt_append {a b c bs : List α} (h : b.length = bs.length) :
    writeAt (a ++ b ++ c) a.length bs = some (a ++ bs ++ c) := by
  simp [writeAt, ← h, List.drop_append]

/-- Moving `b` up to make room for as many cells as `x` has. -/
theorem memmove_up (a b x : List α) :
    memmove (a ++ b ++ x) (a.length + x.length) a.length b.length =
      some (a ++ (b ++ x).take x.length ++ b) := by
  have hle : a.length + x.length + b.length ≤ (a ++ b ++ x).length := by simp; omega
  have hdrop : (a ++ b ++ x).drop (a.length + x.length + b.length) = [] := by
    apply List.drop_of_length_le
    simp
    omega
  rw [memmove, readAt_append, Option.bind_some, writeAt, if_pos hle, hdrop, List.append_nil,
    List.append_assoc a b x, List.take_length_add_append]

/-- Moving `c` down over `b`. -/
theorem memmove_down (a b c d : List α) :
    memmove (a ++ b ++ c ++ d) a.length (a.length + b.length) c.length =
      some (a ++ c ++ (b ++ c ++ d).drop c.length) := by
  have hread := readAt_append (a ++ b) c d
  rw [List.length_append] at hread
  have hle : a.length + c.length ≤ (a ++ b ++ c ++ d).length := by simp; omega
  rw [memmove, hread, Option.bind_some, writeAt, if_pos hle]
  simp [List.append_assoc, List.drop_append]

theorem length_writeAt {blk bs blk' : List α} {off : Nat} (h : writeAt blk off bs = some blk') :
    blk'.length = blk.length := by
  unfold writeAt at h
  split at h
  · obtain rfl := Option.some.inj h
    simp
    omega
  · cases h

/-- The contents of a block of cells after `realloc` to `n` cells; a cell that was never written
    is `none`. -/
def resizeCells (n : Nat) (cells : List (Option α)) : List (Option α) :=
  (cells ++ List.replicate n none).take n

theorem resizeCells_of_le {n : Nat} {cells : List (Option α)}
    (hle : cells.length ≤ n) :
    resizeCells n cells = cells ++ List.replicate (n - cells.length) none := by
  unfold resizeCells
  rw [List.take_append, List.take_of_length_le hle, List.take_replicate,
    Nat.min_eq_left (Nat.sub_le n _)]

end Range

/-! ## Bytes and C strings -/

/-- The contents of a block of bytes after `realloc` to `n` bytes: the old bytes as far as they
    fit, then whatever `junk` holds. -/
def resize (junk : Nat → UInt8) (n : Nat) (blk : List UInt8) : List UInt8 :=
  (blk ++ (List.range n).map junk).take n

@[simp] theorem length_resize (junk : Nat → UInt8) (n : Nat) (blk : List UInt8) :
    (resize junk n blk).length = n := by
  simp [resize]

theorem take_resize (junk : Nat → UInt8) {n k : Nat} {blk : List UInt8} (hn : k ≤ n)
    (hk : k ≤ blk.length) : (resize junk n blk).take k = blk.take k := by
  rw [resize, List.take_take, Nat.min_eq_left hn, List.take_append_of_le_length hk]

/-- `strlen`: the bytes before the first `0`; `none` when the block ends before it. -/
def strlen : List UInt8 → Option Nat
  | [] => none
  | c :: cs => if c = 0 then some 0 else (strlen cs).map (· + 1)

theorem strlen_append_zero {s : List UInt8} (h : 0 ∉ s) (rest : List UInt8) :
    strlen (s ++ 0 :: rest) = some s.length := by
  induction s with
  | nil => simp [strlen]
  | cons c s ih =>
    simp only [List.mem_cons, not_or] at h
    simp [strlen, Ne.symm h.1, ih h.2]

theorem strlen_eq_some {bs : List UInt8} {n : Nat} (h : strlen bs = some n) :
    0 ∉ bs.take n ∧ bs = bs.take n ++ 0 :: bs.drop (n + 1) := by
  induction bs generalizing n with
  | nil => simp [strlen] at h
  | cons c cs ih =>
    unfold strlen at h
    split at h
    · next hc =>
      obtain rfl := Option.some.inj h
      simp [hc]
    · next hc =>
      obtain ⟨k, hk, rfl⟩ := Option.map_eq_some_iff.mp h
      obtain ⟨h1, h2⟩ := ih hk
      refine ⟨by simp [Ne.symm hc, h1], ?_⟩
      simpa using h2

theorem strlen_eq_none {bs : List UInt8} (h : strlen bs = none) : 0 ∉ bs := by
  induction bs with
  | nil => exact List.not_mem_nil
  | cons c cs ih =>
    unfold strlen at h
    split at h
    · cases h
    · next hc =>
      rw [List.mem_cons, not_or]
      exact ⟨Ne.symm hc, ih (Option.map_eq_none_iff.mp h)⟩

/-- `strnlen`: the bytes before the first `0`, at most `n`; `none` when the block ends before. -/
def strnlen : Nat → List UInt8 → Option Nat
  | 0, _ => some 0
  | _ + 1, [] => none
  | n + 1, c :: cs => if c = 0 then some 0 else (strnlen n cs).map (· + 1)

theorem strnlen_append_zero {s : List UInt8} (h : 0 ∉ s) (rest : List UInt8) {n : Nat}
    (hn : s.length ≤ n) : strnlen n (s ++ 0 :: rest) = some s.length := by
  induction s generalizing n with
  | nil => cases n <;> simp [strnlen]
  | cons c s ih =>
    obtain ⟨n, rfl⟩ := Nat.exists_eq_succ_of_ne_zero (Nat.ne_zero_of_lt hn)
    simp only [List.mem_cons, not_or] at h
    rw [List.length_cons] at hn
    simp [strnlen, Ne.symm h.1, ih h.2 (Nat.le_of_succ_le_succ hn)]

end Librecompat.Lib
