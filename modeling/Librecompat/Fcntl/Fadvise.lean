/-
  What `posix_fadvise` does to a file.

  Every advice but one only asks the kernel for something or reads. `POSIX_FADV_DONTNEED` writes
  zeros over the range, where `POSIX_FADV_WILLNEED` reads it. `posixFadvise_unchanged_iff` says
  when the file is none the worse for it.
-/
import Librecompat.Fcntl.Model

namespace Librecompat.Fcntl

open Librecompat.Lib

variable {r : Advice} {offset len advice : Int} {s : State}

@[simp] theorem adviseCmd_file (r : Advice) (cmd : Nat) (s : State) :
    (adviseCmd r cmd s).1.file = s.file := by
  unfold adviseCmd
  split <;> rfl

@[simp] theorem adviseDone_file (count : Except Failure Nat) (s : State) :
    (adviseDone count s).1.file = s.file := by
  unfold adviseDone
  split
  · rfl
  · split <;> rfl

theorem adviseCmd_ret (r : Advice) (cmd : Nat) (s : State) :
    (adviseCmd r cmd s).2 = 0 ↔ r.fcntl cmd = .ok () := by
  unfold adviseCmd
  cases r.fcntl cmd with
  | error e => exact iff_of_false e.2 (by simp)
  | ok _ => exact iff_of_true rfl rfl

/-! ## Each advice -/

/-- The two calls that the function makes of itself are these. -/
theorem posixFadvise_cmd {cmd : Nat} (hargs : ¬ (offset < 0 ∨ len ≤ 0))
    (hadvice : advice = POSIX_FADV_SEQUENTIAL ∧ cmd = F_RDADVISE ||| F_RDAHEAD ∨
      advice = POSIX_FADV_NOREUSE ∧ cmd = F_NOCACHE) :
    posixFadvise r offset len advice s = adviseCmd r cmd s := by
  rw [posixFadvise, if_neg hargs]
  rcases hadvice with ⟨rfl, rfl⟩ | ⟨rfl, rfl⟩ <;> rfl

/-- The advice is `POSIX_FADV_DONTNEED` and the call gets to `pwrite`. -/
structure ReachesPwrite (r : Advice) (offset len advice : Int) : Prop where
  advice : advice = POSIX_FADV_DONTNEED
  args : ¬ (offset < 0 ∨ len ≤ 0)
  fcntl : r.fcntl F_NOCACHE = .ok ()
  malloc : r.malloc = true

/-- The file once `pwrite` has been called. -/
theorem posixFadvise_zeroFill (h : ReachesPwrite r offset len advice) :
    (posixFadvise r offset len advice s).1.file = zeroFill r.pwrite offset len s.file := by
  obtain ⟨rfl, hargs, hfcntl, hmalloc⟩ := h
  have hcmd : adviseCmd r F_NOCACHE s = (s, 0) := by
    rw [adviseCmd, hfcntl]
  rw [posixFadvise, if_neg hargs, if_neg (by decide), if_neg (by decide), if_neg (by decide),
    if_neg (by decide), if_pos rfl, posixFadvise_cmd hargs (.inr ⟨rfl, rfl⟩), hcmd]
  dsimp only
  rw [if_neg (by decide), hmalloc, if_neg (by decide), adviseDone_file]

/-- Nothing else changes the file. -/
theorem posixFadvise_kept (h : ¬ ReachesPwrite r offset len advice) :
    (posixFadvise r offset len advice s).1.file = s.file := by
  rw [posixFadvise]
  by_cases hargs : offset < 0 ∨ len ≤ 0
  · rw [if_pos hargs]
  · rw [if_neg hargs]
    split
    · exact adviseCmd_file r _ s
    · split
      · exact adviseCmd_file r _ s
      · split
        · exact adviseCmd_file r _ s
        · split
          · -- `POSIX_FADV_WILLNEED`
            rw [posixFadvise_cmd hargs (.inl ⟨rfl, rfl⟩)]
            dsimp only
            split
            · exact adviseCmd_file r _ s
            · split
              · exact adviseCmd_file r _ s
              · rw [adviseDone_file, adviseCmd_file]
          · split
            · next hadvice =>
              rw [posixFadvise_cmd hargs (.inr ⟨rfl, rfl⟩)]
              dsimp only
              split
              · exact adviseCmd_file r _ s
              · next hret =>
                split
                · exact adviseCmd_file r _ s
                · next hmalloc =>
                  have hfcntl := (adviseCmd_ret r F_NOCACHE s).mp (not_not.mp hret)
                  exact absurd ⟨hadvice, hargs, hfcntl, by simpa using hmalloc⟩ h
            · rfl

/-! ## Only advice -/

/-- `pwrite` fails, writes nothing, or finds the zeros that it writes. -/
def FindsZeros (count : Except Failure Nat) (offset len : Int) (f : File) : Prop :=
  ∀ n, count = .ok n → (f.data.drop offset.toNat).take (min n len.toNat) =
    List.replicate (min n len.toNat) 0

theorem zeroFill_eq_iff (count : Except Failure Nat) (f : File) :
    zeroFill count offset len f = f ↔ FindsZeros count offset len f := by
  unfold FindsZeros
  cases count with
  | error e => exact iff_of_true rfl nofun
  | ok n =>
    have hdata : zeroFill (.ok n) offset len f = f ↔ overwrite f.data offset.toNat
        (List.replicate (min n len.toNat) 0) = f.data :=
      ⟨congrArg File.data, fun h => show { f with data := _ } = f by rw [h]⟩
    rw [hdata, overwrite_eq_self_iff, List.length_replicate]
    simp

/-- `posix_fadvise` leaves the bytes, the size and the position of the file alone exactly when it
    does not get to `pwrite`, or `pwrite` finds the zeros there. -/
theorem posixFadvise_unchanged_iff (r : Advice) (offset len advice : Int) (s : State) :
    (posixFadvise r offset len advice s).1.file = s.file ↔
      (ReachesPwrite r offset len advice → FindsZeros r.pwrite offset len s.file) := by
  by_cases h : ReachesPwrite r offset len advice
  · rw [posixFadvise_zeroFill h, zeroFill_eq_iff]
    exact ⟨fun hz _ => hz, fun hz => hz h⟩
  · exact iff_of_true (posixFadvise_kept h) fun hr => absurd hr h

/-- Every call succeeds: the one byte of the file becomes zero. -/
theorem posixFadvise_dontneed_zeroes :
    (posixFadvise ⟨fun _ => .ok (), true, .ok 1, .ok 1⟩ 0 1 POSIX_FADV_DONTNEED
      ⟨⟨[7], 0⟩, 0⟩).1.file ≠ ⟨[7], 0⟩ := by
  have hzero : (posixFadvise ⟨fun _ => .ok (), true, .ok 1, .ok 1⟩ 0 1 POSIX_FADV_DONTNEED
      ⟨⟨[7], 0⟩, 0⟩).1.file = ⟨[0], 0⟩ := posixFadvise_zeroFill ⟨rfl, by decide, rfl, rfl⟩
  rw [hzero]
  decide

end Librecompat.Fcntl
