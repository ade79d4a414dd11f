/-
  `posix_fallocate` and `posix_fadvise` of src/fcntl.

  The file is that of the descriptor; what the system calls answer is a parameter of the
  functions. `F_PREALLOCATE` and the advice commands of `fcntl` change neither data nor size.
  The signed addition of the offsets in `posix_fallocate` gives `none` when it overflows.
-/
import Librecompat.Darwin
import Librecompat.Lib.File

namespace Librecompat.Fcntl

open Librecompat.Lib

/-- The `errno` of a call that has failed. -/
abbrev Failure := { e : Errno // e ≠ 0 }

def OFF_MAX : Int := 0x7fffffffffffffff

/-! ## posix_fallocate -/

/-- The answers to `posix_fallocate`: `fst_bytesalloc` after the request for contiguous space
    and after the other one, and those of `lseek` and `write`. -/
structure Allocation where
  contig : Except Failure Int
  all : Except Failure Int
  seek : Except Failure Unit
  write : Except Failure Nat

/-- `fst_bytesalloc` once `F_PREALLOCATE` has succeeded. -/
def preallocate (r : Allocation) : Except Failure Int :=
  match r.contig with
  | .error e => if e.val = ENOTSUP then r.all else .error e
  | .ok bytesalloc => .ok bytesalloc

def posixFallocate (r : Allocation) (offset len : Int) (f : File) : Option (File × Errno) :=
  if offset < 0 ∨ len ≤ 0 then some (f, EINVAL)
  else
    match preallocate r with
    | .error e => some (f, e)
    | .ok bytesalloc =>
      if bytesalloc = 0 then some (f, 0)
      else if offset + len > OFF_MAX then none
      else
        match r.seek with
        | .error e => some (f, e)
        | .ok _ =>
          let f := f.seek (offset + len - 1).toNat
          match r.write with
          | .error e => some (f, e)
          | .ok n => some (f.write ([0].take n), 0)

/-! ## posix_fadvise -/

def POSIX_FADV_NORMAL : Int := 0
def POSIX_FADV_RANDOM : Int := 1
def POSIX_FADV_SEQUENTIAL : Int := 2
def POSIX_FADV_WILLNEED : Int := 3
def POSIX_FADV_DONTNEED : Int := 4
def POSIX_FADV_NOREUSE : Int := 5

def F_RDADVISE : Nat := 44
def F_RDAHEAD : Nat := 45
def F_NOCACHE : Nat := 48

/-- The answers to `posix_fadvise`: those of `fcntl` to its commands, whether `malloc`
    succeeds, and what `pread` and `pwrite` return. -/
structure Advice where
  fcntl : Nat → Except Failure Unit
  malloc : Bool
  pread : Except Failure Nat
  pwrite : Except Failure Nat

structure State where
  file : File
  errno : Errno
  deriving DecidableEq

/-- The value of a `ssize_t` that is stored in an `int`. -/
def asInt (n : Nat) : Int := Int.bmod n (2 ^ 32)

/-- `fcntl (fd, cmd, &ra)` and the return. -/
def adviseCmd (r : Advice) (cmd : Nat) (s : State) : State × Errno :=
  match r.fcntl cmd with
  | .error e => ({ s with errno := e }, e)
  | .ok _ => (s, 0)

/-- From `pread` or `pwrite` to the return. -/
def adviseDone (count : Except Failure Nat) (s : State) : State × Errno :=
  match count with
  | .error e => ({ s with errno := e }, e)
  | .ok n => if asInt n < 0 then (s, s.errno) else (s, 0)

/-- What `pwrite (fd, buf, len, offset)` does to the file, `buf` being full of zeros. -/
def zeroFill (count : Except Failure Nat) (offset len : Int) (f : File) : File :=
  match count with
  | .error _ => f
  | .ok n => f.pwrite offset.toNat (List.replicate (min n len.toNat) 0)

def posixFadvise (r : Advice) (offset len advice : Int) (s : State) : State × Errno :=
  if offset < 0 ∨ len ≤ 0 then (s, EINVAL)
  else if advice = POSIX_FADV_NORMAL then adviseCmd r F_RDADVISE s
  else if advice = POSIX_FADV_SEQUENTIAL ∨ advice = POSIX_FADV_RANDOM then
    adviseCmd r (F_RDADVISE ||| F_RDAHEAD) s
  else if advice = POSIX_FADV_NOREUSE then adviseCmd r F_NOCACHE s
  else if advice = POSIX_FADV_WILLNEED then
    let (s, ret) := posixFadvise r offset len POSIX_FADV_SEQUENTIAL s
    if ret ≠ 0 then (s, ret)
    else if !r.malloc then ({ s with errno := ENOMEM }, ENOMEM)
    else adviseDone r.pread s
  else if advice = POSIX_FADV_DONTNEED then
    let (s, ret) := posixFadvise r offset len POSIX_FADV_NOREUSE s
    if ret ≠ 0 then (s, ret)
    else if !r.malloc then ({ s with errno := ENOMEM }, ENOMEM)
    else adviseDone r.pwrite { s with file := zeroFill r.pwrite offset len s.file }
  else (s, EINVAL)
termination_by if advice = POSIX_FADV_WILLNEED ∨ advice = POSIX_FADV_DONTNEED then 1 else 0
decreasing_by all_goals simp_all [POSIX_FADV_WILLNEED, POSIX_FADV_DONTNEED,
  POSIX_FADV_SEQUENTIAL, POSIX_FADV_NOREUSE]

end Librecompat.Fcntl
