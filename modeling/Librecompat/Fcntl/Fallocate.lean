/-
  What `posix_fallocate` does to a file besides allocating.

  When the kernel has allocated something the emulation seeks to the last byte of the range and
  writes a zero there: the size comes out right, but the position is left behind the range, and
  a byte that was there before is lost. When the kernel reports that nothing had to be
  allocated the file is not extended. `posixFallocate_only_allocates_iff` says when none of this
  shows.
-/
import Librecompat.Fcntl.Model

namespace Librecompat.Fcntl

open Librecompat.Lib

/-- On success the file has all the bytes it had, zeros up to the end of the range, and its
    position; on failure nothing has changed. -/
structure OnlyAllocates (offset len : Int) (f f' : File) (ret : Errno) : Prop where
  data : ret = 0 →
    f'.data = f.data ++ List.replicate ((offset + len).toNat - f.data.length) 0
  pos : ret = 0 → f'.pos = f.pos
  failure : ret ≠ 0 → f' = f

/-- What the answers say about the file: on success nothing is allocated only for a range
    inside the file, the position is where the emulation leaves it, and the byte that it writes
    is behind the end or zero. -/
def Harmless (r : Allocation) (offset len : Int) (f : File) : Prop :=
  match preallocate r, r.seek, r.write with
  | .error _, _, _ => True
  | .ok bytesalloc, seek, write =>
    if bytesalloc = 0 then offset + len ≤ f.data.length
    else
      match seek, write with
      | .error _, _ => True
      | .ok _, .error _ => f.pos = offset + len - 1
      | .ok _, .ok 0 => f.pos = offset + len - 1 ∧ offset + len ≤ f.data.length
      | .ok _, .ok (_ + 1) =>
        f.pos = offset + len ∧ ∀ b ∈ f.data[(offset + len - 1).toNat]?, b = 0

/-- Writing a zero at `off` is allocating up to there unless another byte is in the way. -/
theorem overwrite_zero_iff {data : List UInt8} {off : Nat} :
    overwrite data off [0] = data ++ List.replicate (off + 1 - data.length) 0 ↔
      ∀ b ∈ data[off]?, b = 0 := by
  rcases Nat.lt_or_ge off data.length with hlt | hle
  · rw [Nat.sub_eq_zero_of_le hlt, List.replicate_zero, List.append_nil, overwrite_eq_self_iff,
      List.drop_eq_getElem_cons hlt, List.getElem?_eq_getElem hlt, List.length_singleton,
      List.take_succ_cons, List.take_zero]
    simp only [List.cons.injEq, and_true, Option.mem_some_iff, forall_eq']
  · rw [overwrite_past hle (List.cons_ne_nil _ _), List.getElem?_eq_none hle, List.append_assoc,
      Nat.succ_sub hle, List.replicate_succ']
    simp

variable {r : Allocation} {offset len : Int} {f f' : File} {ret : Errno}

/-- A success that leaves the contents alone and the position at `n`. -/
theorem onlyAllocates_kept (n : Nat) :
    OnlyAllocates offset len f (f.seek n) 0 ↔ f.pos = n ∧ offset + len ≤ f.data.length := by
  have hdata : f.data = f.data ++ List.replicate ((offset + len).toNat - f.data.length) 0 ↔
      offset + len ≤ f.data.length := by
    rw [List.self_eq_append_right, List.replicate_eq_nil_iff]
    omega
  constructor
  · intro h
    exact ⟨(h.pos rfl).symm, hdata.mp (h.data rfl)⟩
  · rintro ⟨hpos, hin⟩
    exact ⟨fun _ => hdata.mpr hin, fun _ => hpos.symm, fun h => absurd rfl h⟩

/-- A success that has written the zero at the end of the range. -/
theorem onlyAllocates_written (hend : 0 < offset + len) :
    OnlyAllocates offset len f ((f.seek (offset + len - 1).toNat).write [0]) 0 ↔
      f.pos = offset + len ∧ ∀ b ∈ f.data[(offset + len - 1).toNat]?, b = 0 := by
  have hsucc : (offset + len).toNat = (offset + len - 1).toNat + 1 := by omega
  rw [← overwrite_zero_iff, ← hsucc]
  constructor
  · intro h
    have hpos : (offset + len - 1).toNat + 1 = f.pos := h.pos rfl
    exact ⟨by omega, h.data rfl⟩
  · rintro ⟨hpos, hdata⟩
    refine ⟨fun _ => hdata, fun _ => ?_, fun h => absurd rfl h⟩
    show (offset + len - 1).toNat + 1 = f.pos
    omega

/-- `posix_fallocate` only allocates exactly when the answers are harmless for the file. -/
theorem posixFallocate_only_allocates_iff (hoffset : 0 ≤ offset) (hlen : 0 < len)
    (hend : offset + len ≤ OFF_MAX) :
    ∃ f' ret, posixFallocate r offset len f = some (f', ret) ∧
      (OnlyAllocates offset len f f' ret ↔ Harmless r offset len f) := by
  have hfails : ∀ {f' : File} {e : Failure}, OnlyAllocates offset len f f' e ↔ f' = f :=
    fun {f' e} => ⟨fun h => h.failure e.2,
      fun h => ⟨fun h0 => absurd h0 e.2, fun h0 => absurd h0 e.2, fun _ => h⟩⟩
  unfold posixFallocate Harmless
  rw [if_neg (by omega)]
  cases hpre : preallocate r with
  | error e => exact ⟨f, e, rfl, iff_of_true (hfails.mpr rfl) trivial⟩
  | ok bytesalloc =>
    dsimp only
    by_cases hzero : bytesalloc = 0
    · rw [if_pos hzero, if_pos hzero]
      have hkept : OnlyAllocates offset len f f 0 ↔ f.pos = f.pos ∧ offset + len ≤ f.data.length :=
        onlyAllocates_kept f.pos
      exact ⟨f, 0, rfl, hkept.trans (and_iff_right rfl)⟩
    · rw [if_neg hzero, if_neg hzero, if_neg (by omega)]
      cases hseek : r.seek with
      | error e => exact ⟨f, e, rfl, iff_of_true (hfails.mpr rfl) trivial⟩
      | ok _ =>
        cases hwrite : r.write with
        | error e =>
          refine ⟨_, e, rfl, hfails.trans ?_⟩
          constructor
          · intro h
            have hpos : (offset + len - 1).toNat = f.pos := congrArg File.pos h
            omega
          · intro h
            show { f with pos := (offset + len - 1).toNat } = f
            rw [← h, Int.toNat_natCast]
        | ok n =>
          refine ⟨_, 0, rfl, ?_⟩
          cases n with
          | zero =>
            have hkept := @onlyAllocates_kept offset len f (offset + len - 1).toNat
            have hwrite : (f.seek (offset + len - 1).toNat).write [] =
                f.seek (offset + len - 1).toNat := rfl
            rw [List.take_zero, hwrite, hkept]
            omega
          | succ n =>
            rw [List.take_succ_cons, List.take_nil]
            exact onlyAllocates_written (by omega)

/-- A file of one byte is extended to three, with the position there already. -/
theorem posixFallocate_only_allocates_iff_grow :
    ∃ f' ret, posixFallocate ⟨.ok 4096, .ok 4096, .ok (), .ok 1⟩ 0 3 ⟨[7], 3⟩ = some (f', ret) ∧
      (OnlyAllocates 0 3 ⟨[7], 3⟩ f' ret ↔
        Harmless ⟨.ok 4096, .ok 4096, .ok (), .ok 1⟩ 0 3 ⟨[7], 3⟩) :=
  posixFallocate_only_allocates_iff (by decide) (by decide) (by decide)

/-- The byte 7, which the range of one byte covers, is lost, and the position moves behind it. -/
theorem posixFallocate_overwrites :
    posixFallocate ⟨.ok 4096, .ok 4096, .ok (), .ok 1⟩ 0 1 ⟨[7], 0⟩ = some (⟨[0], 1⟩, 0) ∧
      ¬ OnlyAllocates 0 1 ⟨[7], 0⟩ ⟨[0], 1⟩ 0 :=
  ⟨rfl, fun h => absurd (h.data rfl) (by decide)⟩

end Librecompat.Fcntl
