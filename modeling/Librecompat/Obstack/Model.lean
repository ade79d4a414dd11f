/-
  `obstack.c` and the macros of `obstack.h`.

  A chunk is a block of the memory whose head are the fields `limit` and `prev`; objects lie in the
  bytes behind them. Addresses are natural numbers (those of a program are far below 2^64, and the
  lengths that are added to them are below 2^31), `0` is `NULL`. `none` is an access outside of the
  live chunks, or `abort`. The allocation functions never fail.

  `temp`, which the macros for GNU C do not use, `alloc_failed` and the pointers to the allocation
  functions are left out.
-/
import Librecompat.Lib.Loop
import Librecompat.Lib.Memory

namespace Librecompat.Obstack

open Librecompat.Lib

/-- The 64-bit targets; they differ in `long double`. -/
inductive Abi
  | x86_64
  | arm64
  deriving DecidableEq

/-- `DEFAULT_ALIGNMENT` -/
def Abi.defaultAlignment : Abi → Nat
  | x86_64 => 16
  | arm64 => 8

/-- `DEFAULT_ROUNDING` -/
def Abi.defaultRounding : Abi → Nat
  | x86_64 => 16
  | arm64 => 8

/-- `p & ~mask` -/
def clearBits (p mask : Nat) : Nat := p - (p &&& mask)

/-- `__PTR_ALIGN (B, P, A)` -/
def ptrAlign (p mask : Nat) : Nat := clearBits (p + mask) mask

/-- The default for `size`. -/
def Abi.defaultSize (abi : Abi) : Nat :=
  let extra := clearBits (clearBits (12 + abi.defaultRounding - 1) (abi.defaultRounding - 1) +
    4 + abi.defaultRounding - 1) (abi.defaultRounding - 1)
  4096 - extra

/-- The fields of `struct _obstack_chunk` in front of `contents`. -/
structure ChunkHead where
  limit : Nat
  prev : Nat
  deriving DecidableEq

/-- `offsetof (struct _obstack_chunk, contents)` -/
def contentsOffset : Nat := 16

/-- `sizeof (COPYING_UNIT)` -/
def copyingUnit : Nat := 4

abbrev Chunk := Block ChunkHead
abbrev Mem := Memory ChunkHead
abbrev Allocator (abi : Abi) := Memory.Allocator ChunkHead abi.defaultAlignment

/-- `struct obstack` -/
structure Obstack where
  chunkSize : Nat
  chunk : Nat
  objectBase : Nat
  nextFree : Nat
  chunkLimit : Nat
  alignmentMask : Nat
  maybeEmptyObject : Bool

structure State where
  h : Obstack
  mem : Mem

variable {abi : Abi} (A : Allocator abi)

/-- The first address for an object in the chunk at `p`. -/
def contentsAligned (p mask : Nat) : Nat := ptrAlign (p + contentsOffset) mask

/-- `_obstack_begin` -/
def obstackBegin (size alignment : Nat) (m : Mem) : State :=
  let alignment := if alignment = 0 then abi.defaultAlignment else alignment
  let size := if size = 0 then abi.defaultSize else size
  let (m, chunk) := m.alloc A size { limit := A.place m size + size, prev := 0 }
  { h :=
      { chunkSize := size, chunk := chunk, objectBase := contentsAligned chunk (alignment - 1),
        nextFree := contentsAligned chunk (alignment - 1), chunkLimit := chunk + size,
        alignmentMask := alignment - 1, maybeEmptyObject := false }
    mem := m }

/-- How the object of `objSize` bytes is copied: words from the last one down when it is aligned for
    them, and then the other bytes. -/
def copyOrder (abi : Abi) (mask objSize : Nat) : List (Nat × Nat) :=
  if mask + 1 ≥ abi.defaultAlignment then
    (List.range (objSize / copyingUnit)).reverse.map (fun i => (i * copyingUnit, copyingUnit)) ++
      (List.range' (objSize / copyingUnit * copyingUnit)
        (objSize - objSize / copyingUnit * copyingUnit)).map fun i => (i, 1)
  else (List.range' 0 objSize).map fun i => (i, 1)

/-- The size of the new chunk. -/
def newSize (h : Obstack) (length : Nat) : Nat :=
  let objSize := h.nextFree - h.objectBase
  let size := (objSize + length) + (objSize >>> 3) + h.alignmentMask + 100
  if size < h.chunkSize then h.chunkSize else size

/-- Free the old chunk and remove it from the chain if the object just copied was the only data in
    it, but not if it might contain an empty object. -/
def dropOldChunk (h : Obstack) (newChunk : Nat) (m : Mem) : Option Mem := do
  if ¬ h.maybeEmptyObject ∧ h.objectBase = contentsAligned h.chunk h.alignmentMask then
    let old ← m.head h.chunk
    let new ← m.head newChunk
    let m ← m.setHead newChunk { new with prev := old.prev }
    m.free h.chunk
  else some m

/-- `_obstack_newchunk` -/
def newchunk (length : Nat) (s : State) : Option State := do
  let h := s.h
  let objSize := h.nextFree - h.objectBase
  let size := newSize h length
  let (m, newChunk) := s.mem.alloc A size { limit := A.place s.mem size + size, prev := h.chunk }
  let objectBase := contentsAligned newChunk h.alignmentMask
  let m ← m.copyPieces contentsOffset h.objectBase objectBase (copyOrder abi h.alignmentMask objSize)
  let m ← dropOldChunk h newChunk m
  some { h := { h with chunk := newChunk, chunkLimit := newChunk + size, objectBase := objectBase,
                       nextFree := objectBase + objSize, maybeEmptyObject := false }
         mem := m }

/-! ## The macros -/

/-- The test for room that the macros for growing begin with. -/
def reserve (length : Nat) (s : State) : Option State :=
  if s.h.nextFree + length > s.h.chunkLimit then newchunk A length s else some s

/-- `memcpy (next_free, where, len); next_free += len;` -/
def append (bs : List UInt8) (s : State) : Option State := do
  let m ← s.mem.stores contentsOffset s.h.nextFree bs
  some { h := { s.h with nextFree := s.h.nextFree + bs.length }, mem := m }

def grow (bs : List UInt8) (s : State) : Option State :=
  (reserve A bs.length s).bind (append bs)

def grow0 (bs : List UInt8) (s : State) : Option State := do
  let s ← reserve A (bs.length + 1) s
  let s ← append bs s
  append [0] s

def onegrow (c : UInt8) (s : State) : Option State :=
  (reserve A 1 s).bind (append [c])

def blank (length : Nat) (s : State) : Option State := do
  let s ← reserve A length s
  some { s with h := { s.h with nextFree := s.h.nextFree + length } }

/-- `obstack_finish`, with the address of the object. -/
def finish (s : State) : State × Nat :=
  let h := s.h
  let value := h.objectBase
  let nextFree := ptrAlign h.nextFree h.alignmentMask
  let nextFree := if nextFree > h.chunkLimit then h.chunkLimit else nextFree
  ({ s with h := { h with maybeEmptyObject := if h.nextFree = value then true else h.maybeEmptyObject,
                          nextFree := nextFree, objectBase := nextFree } }, value)

/-- The loop of `__obstack_free`, over `lp` and `h->maybe_empty_object`. -/
def freeBody (obj : Nat) (s : Mem × Nat × Bool) :
    (Mem × Nat × Bool) ⊕ Option (Mem × Nat × Bool) :=
  let (m, lp, maybeEmptyObject) := s
  if lp = 0 then .inr (some s)
  else
    match m.head lp with
    | none => .inr none
    | some head =>
      if lp ≥ obj ∨ head.limit < obj then
        match m.free lp with
        | none => .inr none
        | some m => .inl (m, head.prev, true)
      else .inr (some (m, lp, maybeEmptyObject))

/-- `__obstack_free` -/
def obstackFree (obj : Nat) (s : State) : Option State := do
  let h := s.h
  let (m, lp, maybeEmptyObject) ← (loop (freeBody obj) (s.mem.blocks.length + 1)
    (s.mem, h.chunk, h.maybeEmptyObject)).join
  if lp ≠ 0 then
    let head ← m.head lp
    some { h := { h with objectBase := obj, nextFree := obj, chunkLimit := head.limit, chunk := lp,
                         maybeEmptyObject := maybeEmptyObject }
           mem := m }
  -- the object is not in any of the chunks
  else if obj ≠ 0 then none
  else some { h := { h with maybeEmptyObject := maybeEmptyObject }, mem := m }

/-- The macro `obstack_free`. -/
def obstackFreeMacro (obj : Nat) (s : State) : Option State :=
  if obj > s.h.chunk ∧ obj < s.h.chunkLimit then
    some { s with h := { s.h with nextFree := obj, objectBase := obj } }
  else obstackFree obj s

end Librecompat.Obstack
