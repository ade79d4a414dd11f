/-
  Arrays of cells that are `n` bytes each.

  `flat` is what an array of cells looks like in memory. `readAt_cell` and `writeAt_cells` read and
  write one cell of it, and `exists_flat` says that any bytes of the right number are an array.
-/
import Librecompat.Lib.Bytes

namespace Librecompat.Lib

/-- A value of `n` bytes. -/
abbrev Cell (n : Nat) := { bs : List UInt8 // bs.length = n }

/-- The value whose bytes are all zero. -/
def Cell.zero (n : Nat) : Cell n := ⟨List.replicate n 0, List.length_replicate⟩

variable {n : Nat}

/-- The bytes of an array. -/
def flat (cells : List (Cell n)) : List UInt8 := (cells.map (·.1)).flatten

@[simp] theorem flat_nil : flat ([] : List (Cell n)) = [] := rfl

@[simp] theorem flat_cons (c : Cell n) (cells : List (Cell n)) :
    flat (c :: cells) = c.1 ++ flat cells := rfl

@[simp] theorem flat_append (a b : List (Cell n)) : flat (a ++ b) = flat a ++ flat b := by
  simp [flat]

theorem flat_singleton (c : Cell n) : flat [c] = c.1 := List.append_nil c.1

@[simp] theorem length_flat (cells : List (Cell n)) : (flat cells).length = cells.length * n := by
  induction cells with
  | nil => simp
  | cons c cells ih =>
    rw [flat_cons, List.length_append, c.2, ih, List.length_cons, Nat.succ_mul, Nat.add_comm]

theorem flat_replicate_zero (k : Nat) :
    flat (List.replicate k (Cell.zero n)) = List.replicate (k * n) 0 := by
  induction k with
  | zero => simp
  | succ k ih =>
    rw [List.replicate_succ, flat_cons, ih, Cell.zero, List.replicate_append_replicate,
      Nat.succ_mul, Nat.add_comm]

/-- Any bytes are an array if their number is right. -/
theorem exists_flat : ∀ {k : Nat} {bs : List UInt8}, bs.length = k * n →
    ∃ cells : List (Cell n), cells.length = k ∧ flat cells = bs
  | 0, bs, h => by
    rw [Nat.zero_mul] at h
    exact ⟨[], rfl, (List.length_eq_zero_iff.mp h).symm⟩
  | k + 1, bs, h => by
    rw [Nat.succ_mul] at h
    have htake : (bs.take n).length = n := by
      rw [List.length_take]
      omega
    obtain ⟨cells, hlen, hflat⟩ := @exists_flat k (bs.drop n) (by rw [List.length_drop]; omega)
    refine ⟨⟨bs.take n, htake⟩ :: cells, by rw [List.length_cons, hlen], ?_⟩
    rw [flat_cons, hflat, List.take_append_drop]

/-- The cell behind `a`. -/
theorem readAt_cell (a b : List (Cell n)) (c : Cell n) (rest : List UInt8) :
    readAt (flat (a ++ c :: b) ++ rest) (a.length * n) n = some c.1 := by
  have hread := readAt_append (flat a) c.1 (flat b ++ rest)
  rw [c.2, length_flat] at hread
  simpa using hread

/-- Writing cells over as many bytes behind `a`. -/
theorem writeAt_cells (a new : List (Cell n)) {old rest : List UInt8}
    (h : old.length = new.length * n) :
    writeAt (flat a ++ old ++ rest) (a.length * n) (flat new) = some (flat (a ++ new) ++ rest) := by
  rw [← length_flat] at h ⊢
  rw [writeAt_append h, flat_append]

end Librecompat.Lib
