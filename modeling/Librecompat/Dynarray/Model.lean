/-
  The dynamic arrays of `dynarray-skeleton.c` and `dynarray_*.c` over a heap.

  `Params` are the macros an instance of the skeleton is made with. `none` is an access outside of a
  live block. `size_t` arguments are `UInt64`; sums and products of sizes are taken modulo 2^64
  where the source does not test for an overflow. The allocator refuses more than `PTRDIFF_MAX`
  bytes.

  The `log` is not in the source: it records each size that is passed to the allocator or to
  `memcpy` together with the number it is meant to be, and the elements passed to
  `DYNARRAY_ELEMENT_FREE`. `errno` is left out.
-/
import Librecompat.Darwin
import Librecompat.Lib.Cells
import Librecompat.Lib.Owned

namespace Librecompat.Dynarray

open Librecompat.Lib

/-- The macros: `sizeof (DYNARRAY_ELEMENT)`, `DYNARRAY_INITIAL_SIZE`, what `DYNARRAY_ELEMENT_INIT`
    stores and whether there is a `DYNARRAY_ELEMENT_FREE`. -/
structure Params where
  elementSize : Nat
  initialSize : Nat
  elementInit : Option (Cell elementSize)
  elementFree : Bool
  elementSize_pos : 0 < elementSize
  scratch_lt : initialSize * elementSize < 2 ^ 63

abbrev Params.Element (P : Params) := Cell P.elementSize

/-- A pointer to elements: `NULL`, the scratch space or a block of the heap. -/
inductive Ptr
  | null
  | scratch
  | heap (p : Nat)
  deriving DecidableEq

inductive Event
  /-- The allocator was asked for `passed` bytes, which should be `exact`. -/
  | alloc (exact passed : Nat) (granted : Bool)
  /-- The allocator was not asked, as `exact` bytes are too many for a `size_t`. -/
  | overflow (exact : Nat)
  | copy (exact passed : Nat)
  | elementFree (e : List UInt8)

/-- The fields of the array, the memory and the log. -/
structure State where
  used : Nat
  allocated : Nat
  array : Ptr
  scratch : List UInt8
  mem : Mem (List UInt8)
  log : List Event

/-- `__dynarray_error_marker ()` -/
def errorMarker : Nat := 2 ^ 64 - 1

/-- `a * b` in `size_t`. -/
def mulSize (a b : Nat) : Nat := a * b % 2 ^ 64

def State.note (e : Event) (s : State) : State := { s with log := s.log ++ [e] }

/-- What `array` points to. -/
def State.block (s : State) : Option (List UInt8) :=
  match s.array with
  | .null => none
  | .scratch => some s.scratch
  | .heap p => s.mem.heap.get p

def State.setBlock (blk : List UInt8) (s : State) : Option State :=
  match s.array with
  | .null => none
  | .scratch => some { s with scratch := blk }
  | .heap p => (store s.mem p blk).map fun m => { s with mem := m }

/-- Store `bs` at the offset `off` from `array`. -/
def State.poke (off : Nat) (bs : List UInt8) (s : State) : Option State := do
  let blk ← s.block
  let blk ← writeAt blk off bs
  s.setBlock blk

/-- `free (list->array)` -/
def State.freeBlock (s : State) : Option State :=
  match s.array with
  | .null => some s
  | .scratch => none
  | .heap p => (free s.mem p).map fun m => { s with mem := m }

variable (A : Allocator (List UInt8)) (P : Params)

/-- `DYNARRAY_SCRATCH (list)` -/
def Params.scratchPtr : Ptr := if P.initialSize > 0 then .scratch else .null

def mallocBytes (m : Mem (List UInt8)) (n : Nat) : Mem (List UInt8) × Nat :=
  if n < 2 ^ 63 then malloc A m (resize (A.junk m.calls) n [])
  else ({ m with calls := m.calls + 1 }, 0)

def reallocBytes (m : Mem (List UInt8)) (n : Nat) : Ptr → Option (Mem (List UInt8) × Nat)
  | .null => some (mallocBytes A m n)
  | .scratch => none
  | .heap p =>
    if n < 2 ^ 63 then realloc A m p (resize (A.junk m.calls) n []) (resize (A.junk m.calls) n)
    else (m.heap.get p).map fun _ => ({ m with calls := m.calls + 1 }, 0)

/-- `memcpy (p, list->array, list->used * element_size);` -/
def copyTo (p : Nat) (s : State) : Option State := do
  let size := mulSize s.used P.elementSize
  let bs ← s.block
  let bs ← readAt bs 0 size
  let blk ← s.mem.heap.get p
  let blk ← writeAt blk 0 bs
  let mem ← store s.mem p blk
  some (State.note (.copy (s.used * P.elementSize) size) { s with mem := mem })

/-- `if (list->array != NULL) memcpy (p, …);` -/
def copyIfAny (p : Nat) (s : State) : Option State :=
  if s.array ≠ .null then copyTo P p s else some s

/-! ## dynarray_emplace_enlarge.c, dynarray_resize.c, dynarray_resize_clear.c -/

/-- The new array of `newSize` bytes, meant to be `exact`; `0` is `NULL`. -/
def newArray (newSize exact : Nat) (s : State) : Option (State × Nat) :=
  if s.array = P.scratchPtr then
    let (mem, p) := mallocBytes A s.mem newSize
    let s := State.note (.alloc exact newSize (p ≠ 0)) { s with mem := mem }
    if p ≠ 0 then (copyIfAny P p s).map fun s => (s, p) else some (s, p)
  else
    (reallocBytes A s.mem newSize s.array).map fun (mem, p) =>
      (State.note (.alloc exact newSize (p ≠ 0)) { s with mem := mem }, p)

/-- What the functions that enlarge the array share: room for `newAllocated` elements, which should
    be `exact`. -/
def enlarge (newAllocated exact : Nat) (s : State) : Option (State × Bool) :=
  if newAllocated * P.elementSize ≥ 2 ^ 64 then
    some (s.note (.overflow (exact * P.elementSize)), false)
  else
    (newArray A P (newAllocated * P.elementSize) (exact * P.elementSize) s).map fun (s, p) =>
      if p = 0 then (s, false) else ({ s with array := .heap p, allocated := newAllocated }, true)

/-- The size that an array without scratch space starts with. -/
def firstAllocated (elementSize : Nat) : Nat :=
  if elementSize < 4 then 16 else if elementSize < 8 then 8 else 4

/-- `__libc_dynarray_emplace_enlarge` -/
def emplaceEnlarge (s : State) : Option (State × Bool) :=
  if s.allocated = 0 then
    enlarge A P (firstAllocated P.elementSize) (firstAllocated P.elementSize) s
  else
    let exact := s.allocated + s.allocated / 2 + 1
    let newAllocated := exact % 2 ^ 64
    if newAllocated ≤ s.allocated then some (s.note (.overflow (exact * P.elementSize)), false)
    else enlarge A P newAllocated exact s

/-- `__libc_dynarray_resize` -/
def libcResize (size : Nat) (s : State) : Option (State × Bool) :=
  if size ≤ s.allocated then some ({ s with used := size }, true)
  else
    (enlarge A P size size s).map fun (s, ok) =>
      if ok then ({ s with used := size }, true) else (s, false)

/-- `__libc_dynarray_resize_clear` -/
def libcResizeClear (size : Nat) (s : State) : Option (State × Bool) := do
  let oldSize := s.used
  let (s, ok) ← libcResize A P size s
  if ok then
    let s ← s.poke (mulSize oldSize P.elementSize)
      (List.replicate (mulSize (subSize size oldSize) P.elementSize) 0)
    some (s, true)
  else some (s, false)

/-! ## dynarray-skeleton.c -/

/-- The loop of `free__elements__` over `n` elements, from number `i` on. -/
def freeLoop (i : Nat) : Nat → State → Option State
  | 0, s => some s
  | n + 1, s => do
    let blk ← s.block
    let e ← readAt blk (i * P.elementSize) P.elementSize
    freeLoop (i + 1) n (s.note (.elementFree e))

/-- `free__elements__ (list->array + i, n)` -/
def freeElements (i n : Nat) (s : State) : Option State :=
  if P.elementFree then freeLoop P i n s else some s

/-- `free__array__` -/
def freeArray (s : State) : Option State :=
  if P.initialSize > 0 then if s.array ≠ .scratch then s.freeBlock else some s
  else s.freeBlock

def init (s : State) : State :=
  { s with used := 0, allocated := P.initialSize, array := P.scratchPtr }

/-- `DYNARRAY_FREE` -/
def freeList (s : State) : Option State := do
  let s ← freeElements P 0 s.used s
  let s ← freeArray P s
  some (init P s)

def hasFailed (s : State) : Bool := s.allocated = errorMarker

def markFailed (s : State) : Option State := do
  let s ← freeElements P 0 s.used s
  let s ← freeArray P s
  some { s with array := P.scratchPtr, used := 0, allocated := errorMarker }

/-- `list->u.dynarray_header.array[list->u.dynarray_header.used++] = item;` -/
def push (item : P.Element) (s : State) : Option State :=
  (s.poke (s.used * P.elementSize) item.1).map fun s => { s with used := s.used + 1 }

/-- `add__` -/
def addSlow (item : P.Element) (s : State) : Option State := do
  let (s, ok) ← emplaceEnlarge A P s
  if ok then push P item s else markFailed P s

def add (item : P.Element) (s : State) : Option State :=
  if hasFailed s then some s
  else if s.used = s.allocated then addSlow A P item s
  else push P item s

/-- The element that new elements are set to, if they are. -/
def Params.fill : Option P.Element :=
  match P.elementInit with
  | some e => some e
  | none => if P.elementFree then some (Cell.zero P.elementSize) else none

/-- `emplace__tail__`, with the number of the element it makes. -/
def emplaceTail (s : State) : Option (State × Nat) :=
  match P.fill with
  | some e => (s.poke (s.used * P.elementSize) e.1).map fun s' =>
      ({ s' with used := s.used + 1 }, s.used)
  | none => some ({ s with used := s.used + 1 }, s.used)

/-- `emplace__` -/
def emplaceSlow (s : State) : Option (State × Option Nat) := do
  let (s, ok) ← emplaceEnlarge A P s
  if ok then (emplaceTail P s).map fun (s, i) => (s, some i)
  else (markFailed P s).map fun s => (s, none)

/-- `emplace`, with the number of the element it hands out a pointer to. -/
def emplace (s : State) : Option (State × Option Nat) :=
  if hasFailed s then some (s, none)
  else if s.used = s.allocated then emplaceSlow A P s
  else (emplaceTail P s).map fun (s, i) => (s, some i)

/-- The loop of `resize` that initializes `n` elements, from number `i` on. -/
def initLoop (e : P.Element) (i : Nat) : Nat → State → Option State
  | 0, s => some s
  | n + 1, s => do
    let s ← s.poke (i * P.elementSize) e.1
    initLoop e (i + 1) n s

/-- The part of `resize` for a larger size up to `if (!ok)`. -/
def resizeUp (size : Nat) (s : State) : Option (State × Bool) :=
  match P.elementInit with
  | some e => do
    let oldSize := s.used
    let (s, ok) ← libcResize A P size s
    if ok then (initLoop P e oldSize (size - oldSize) s).map fun s => (s, true)
    else some (s, false)
  | none => if P.elementFree then libcResizeClear A P size s else libcResize A P size s

def resize (size : UInt64) (s : State) : Option (State × Bool) :=
  if size.toNat > s.used then do
    let (s, ok) ← resizeUp A P size.toNat s
    if ok then some (s, true) else (markFailed P s).map fun s => (s, false)
  else
    (freeElements P size.toNat (s.used - size.toNat) s).map fun s =>
      ({ s with used := size.toNat }, true)

def removeLast (s : State) : Option State :=
  if s.used > 0 then
    (freeElements P (s.used - 1) 1 s).map fun s' => { s' with used := s.used - 1 }
  else some s

def clear (s : State) : Option State :=
  (freeElements P 0 s.used s).map fun s => { s with used := 0 }

/-! ## dynarray_finalize.c -/

/-- `if (list->array != scratch) free (list->array);` -/
def freeOther (s : State) : Option State :=
  if s.array ≠ P.scratchPtr then s.freeBlock else some s

/-- `__libc_dynarray_finalize`, with the array and the length of the result. -/
def libcFinalize (s : State) : Option (State × Option (Nat × Nat)) :=
  if hasFailed s then some (s, none)
  else if s.used = 0 then (freeOther P s).map fun s => (s, some (0, 0))
  else
    let allocationSize := mulSize s.used P.elementSize
    let (mem, heapArray) := mallocBytes A s.mem allocationSize
    let s := State.note (.alloc (s.used * P.elementSize) allocationSize (heapArray ≠ 0))
      { s with mem := mem }
    if heapArray ≠ 0 then do
      let s ← copyIfAny P heapArray s
      let s ← freeOther P s
      some (s, some (heapArray, s.used))
    else some (s, none)

/-- `finalize`; `none` is the failure. -/
def finalize (s : State) : Option (State × Option (Nat × Nat)) := do
  let (s, res) ← libcFinalize A P s
  if res.isSome then some (init P s, res) else (freeList P s).map fun s => (s, none)

end Librecompat.Dynarray
