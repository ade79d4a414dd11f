/-
  A file and a descriptor for it: the contents and the position.

  `overwrite` is what a write at an offset does to the contents: a gap behind the old end is
  filled with zeros, and a write of nothing does nothing. `File.write` writes at the position
  and moves it, `File.pwrite` does not move it.
-/
import Mathlib.Data.List.Basic

namespace Librecompat.Lib

structure File where
  data : List UInt8
  pos : Nat
  deriving DecidableEq

/-- The contents once `bs` has been written at `off`. -/
def overwrite (data : List UInt8) (off : Nat) (bs : List UInt8) : List UInt8 :=
  if bs = [] then data
  else (data ++ List.replicate (off - data.length) 0).take off ++ bs ++ data.drop (off + bs.length)

def File.seek (f : File) (off : Nat) : File := { f with pos := off }

def File.pwrite (f : File) (off : Nat) (bs : List UInt8) : File :=
  { f with data := overwrite f.data off bs }

def File.write (f : File) (bs : List UInt8) : File :=
  { data := overwrite f.data f.pos bs, pos := f.pos + bs.length }

variable {data bs : List UInt8} {off : Nat}

theorem overwrite_nil (data : List UInt8) (off : Nat) : overwrite data off [] = data := if_pos rfl

/-- Behind the end the file grows. -/
theorem overwrite_past (h : data.length ≤ off) (hne : bs ≠ []) :
    overwrite data off bs = data ++ List.replicate (off - data.length) 0 ++ bs := by
  have hlen : (data ++ List.replicate (off - data.length) 0).length = off := by
    rw [List.length_append, List.length_replicate]
    omega
  rw [overwrite, if_neg hne, List.take_of_length_le (Nat.le_of_eq hlen),
    List.drop_of_length_le (by omega), List.append_nil]

theorem overwrite_inside (h : off ≤ data.length) (hne : bs ≠ []) :
    overwrite data off bs = data.take off ++ bs ++ data.drop (off + bs.length) := by
  rw [overwrite, if_neg hne, Nat.sub_eq_zero_of_le h, List.replicate_zero, List.append_nil]

/-- A write changes nothing when it writes what is there. -/
theorem overwrite_eq_self_iff :
    overwrite data off bs = data ↔ (data.drop off).take bs.length = bs := by
  by_cases hne : bs = []
  · simp [hne, overwrite_nil]
  · rcases Nat.lt_or_ge data.length off with hlt | hle
    · rw [overwrite_past (Nat.le_of_lt hlt) hne, List.drop_of_length_le (Nat.le_of_lt hlt)]
      refine iff_of_false (fun h => ?_) (fun h => hne (by simpa using h.symm))
      have hlen := congrArg List.length h
      rw [List.length_append, List.length_append, List.length_replicate] at hlen
      omega
    · rw [overwrite_inside hle hne]
      have hcut : data = data.take off ++ ((data.drop off).take bs.length ++
          data.drop (off + bs.length)) := by
        rw [← List.drop_drop, List.take_append_drop, List.take_append_drop]
      constructor
      · intro h
        rw [List.append_assoc] at h
        have hrest := List.append_cancel_left (h.trans hcut)
        exact (List.append_cancel_right hrest).symm
      · intro h
        rw [h] at hcut
        rw [List.append_assoc]
        exact hcut.symm

end Librecompat.Lib
