/-
  The argz functions of src/argz over a heap.

  `Vec` is the caller's `*argz`, `*argz_len` and the memory. Pointers are addresses; a pointer
  into the vector is the block's base plus an offset. Every access is checked against the
  block, and `none` means that the call goes wrong (it reads or writes outside a live block).
  String arguments do not point into the vector, so they are passed by value.

  `loop` runs the `while` loops; the number of passes it may make always suffices: every pass
  moves a pointer forward inside its block.
-/
import Librecompat.Darwin
import Librecompat.Lib.Heap
import Librecompat.Lib.Loop

namespace Librecompat.Argz

open Librecompat.Lib

/-- The memory, `*argz` and `*argz_len`. -/
structure Vec where
  mem : Mem (List UInt8)
  argz : Nat
  argzLen : Nat

variable (A : Allocator (List UInt8))

/-- `malloc (n)`. -/
def mallocBytes (m : Mem (List UInt8)) (n : Nat) : Mem (List UInt8) × Nat :=
  malloc A m (resize (A.junk m.calls) n [])

/-- `realloc (p, n)`. -/
def reallocBytes (m : Mem (List UInt8)) (p : Nat) (n : Nat) :
    Option (Mem (List UInt8) × Nat) :=
  realloc A m p (resize (A.junk m.calls) n []) (resize (A.junk m.calls) n)

/-! ## argz-create.c, argz-append.c -/

/-- `for (argc = 0; argv[argc] != NULL; ++argc) tlen += strlen (argv[argc]) + 1;` -/
def argvLen : List CString → Nat
  | [] => 0
  | a :: argv => a.1.length + 1 + argvLen argv

/-- `for (p = *argz, ap = argv; *ap; ++ap, ++p) p = stpcpy (p, *ap);` -/
def copyArgs (blk : List UInt8) (p : Nat) : List CString → Option (List UInt8)
  | [] => some blk
  | ap :: argv =>
    (writeAt blk p (ap.1 ++ [0])).bind fun blk => copyArgs blk (p + ap.1.length + 1) argv

def argzCreate (argv : List CString) (s : Vec) : Option (Vec × Errno) :=
  let tlen := argvLen argv
  if tlen = 0 then some ({ s with argz := 0, argzLen := tlen }, 0)
  else
    let (mem, p) := mallocBytes A s.mem tlen
    if p = 0 then some ({ s with mem := mem, argz := 0 }, ENOMEM)
    else do
      let blk ← mem.heap.get p
      let mem ← store mem p (← copyArgs blk 0 argv)
      some ({ mem := mem, argz := p, argzLen := tlen }, 0)

def argzAppend (buf : List UInt8) (s : Vec) : Option (Vec × Errno) := do
  let newArgzLen := s.argzLen + buf.length
  let (mem, newArgz) ← reallocBytes A s.mem s.argz newArgzLen
  if newArgz = 0 then some ({ s with mem := mem }, ENOMEM)
  else
    let blk ← mem.heap.get newArgz
    let mem ← store mem newArgz (← writeAt blk s.argzLen buf)
    some ({ mem := mem, argz := newArgz, argzLen := newArgzLen }, 0)

def argzAdd (str : CString) (s : Vec) : Option (Vec × Errno) :=
  argzAppend A (str.1 ++ [0]) s

/-! ## argz-insert.c, argz-delete.c -/

/-- `while (before[-1]) before--;` -/
def rewind (blk : List UInt8) : Nat → Option Nat
  | 0 => none
  | off + 1 => blk[off]?.bind fun c => if c = 0 then some (off + 1) else rewind blk off

/-- `if (before > *argz) while (before[-1]) before--;` on the offset of `before`. -/
def entryOffset (blk : List UInt8) (off : Nat) : Option Nat :=
  if off > 0 then rewind blk off else some 0

def argzInsert (before : Nat) (entry : CString) (s : Vec) : Option (Vec × Errno) :=
  if before = 0 then argzAdd A entry s
  else if before < s.argz ∨ before ≥ s.argz + s.argzLen then some (s, EINVAL)
  else do
    let old ← s.mem.heap.get s.argz
    let off ← entryOffset old (before - s.argz)
    let afterBefore := s.argzLen - off
    let entryLen := entry.1.length + 1
    let newArgzLen := s.argzLen + entryLen
    let (mem, newArgz) ← reallocBytes A s.mem s.argz newArgzLen
    if newArgz = 0 then some ({ s with mem := mem }, ENOMEM)
    else
      let blk ← mem.heap.get newArgz
      let blk ← memmove blk (off + entryLen) off afterBefore
      let blk ← writeAt blk off (entry.1 ++ [0])
      let mem ← store mem newArgz blk
      some ({ mem := mem, argz := newArgz, argzLen := newArgzLen }, 0)

def argzDelete (entry : Nat) (s : Vec) : Option Vec :=
  if entry = 0 then some s
  else if entry < s.argz then none
  else do
    let off := entry - s.argz
    let blk ← s.mem.heap.get s.argz
    let entryLen := (← strlen (blk.drop off)) + 1
    let argzLen := subSize s.argzLen entryLen
    let mem ← store s.mem s.argz (← memmove blk off (off + entryLen) (subSize argzLen off))
    if argzLen = 0 then
      let mem ← free mem s.argz
      some { mem := mem, argz := 0, argzLen := argzLen }
    else some { mem := mem, argz := s.argz, argzLen := argzLen }

/-! ## argz-next.c, argz-count.c, argz-extract.c -/

/-- The bytes from address `p` to the end of the vector's block. -/
def bytesFrom (s : Vec) (p : Nat) : List UInt8 :=
  if p < s.argz then [] else ((s.mem.heap.get s.argz).getD []).drop (p - s.argz)

def argzNext (s : Vec) (entry : Nat) : Option Nat :=
  if entry ≠ 0 then do
    let entry ← if entry < s.argz + s.argzLen then
        (strlen (bytesFrom s entry)).map fun n => entry + n + 1
      else some entry
    some (if entry ≥ s.argz + s.argzLen then 0 else entry)
  else if s.argzLen > 0 then some s.argz
  else some 0

/-- The loop variables of `argz_count`. -/
structure CountState where
  argz : Nat
  len : Nat
  count : Nat

def argzCountBody (s : Vec) (c : CountState) : CountState ⊕ Option Nat :=
  if c.len > 0 then
    match strlen (bytesFrom s c.argz) with
    | none => .inr none
    | some partLen =>
      .inl { argz := c.argz + (partLen + 1), len := subSize c.len (partLen + 1),
             count := c.count + 1 }
  else .inr (some c.count)

def argzCount (s : Vec) : Option Nat :=
  (loop (argzCountBody s) (s.argzLen + 1)
    { argz := s.argz, len := s.argzLen, count := 0 }).join

/-- The loop variables of `argz_extract`; `argv` is what has been written so far. -/
structure ExtractState where
  argz : Nat
  len : Nat
  argv : List Nat

def argzExtractBody (s : Vec) (c : ExtractState) : ExtractState ⊕ Option (List Nat) :=
  if c.len > 0 then
    match strlen (bytesFrom s c.argz) with
    | none => .inr none
    | some partLen =>
      .inl { argz := c.argz + (partLen + 1), len := subSize c.len (partLen + 1),
             argv := c.argv ++ [c.argz] }
  else .inr (some (c.argv ++ [0]))

def argzExtract (s : Vec) : Option (List Nat) :=
  (loop (argzExtractBody s) (s.argzLen + 1)
    { argz := s.argz, len := s.argzLen, argv := [] }).join

/-! ## argz-addsep.c -/

/-- The loop variables of `argz_add_sep`: the block being written, the offset of `wp` in it
    and `nlen`. -/
structure SepState where
  blk : List UInt8
  wp : Nat
  nlen : Nat

/-- One pass of `do … while (*rp++ != '\0')` for the character `*rp`. -/
def sepStep (delim : Int) (c : UInt8) (w : SepState) : Option SepState :=
  if charVal c = delim then
    if w.wp > 0 then do
      if (← w.blk[w.wp - 1]?) ≠ 0 then
        some { w with blk := ← writeAt w.blk w.wp [0], wp := w.wp + 1 }
      else some { w with nlen := w.nlen - 1 }
    else some { w with nlen := w.nlen - 1 }
  else do some { w with blk := ← writeAt w.blk w.wp [c], wp := w.wp + 1 }

def argzAddSep (string : CString) (delim : Int) (s : Vec) : Option (Vec × Errno) :=
  let nlen := string.1.length + 1
  if nlen > 1 then do
    let (mem, p) ← reallocBytes A s.mem s.argz (s.argzLen + nlen)
    if p = 0 then some ({ s with mem := mem, argz := p }, ENOMEM)
    else
      let blk ← mem.heap.get p
      let w ← (string.1 ++ [0]).foldlM (fun w c => sepStep delim c w)
        { blk := blk, wp := s.argzLen, nlen := nlen }
      let mem ← store mem p w.blk
      some ({ mem := mem, argz := p, argzLen := s.argzLen + w.nlen }, 0)
  else some (s, 0)

/-! ## argz-ctsep.c, argz-stringify.c -/

def argzCreateSep (string : CString) (delim : Int) (s : Vec) : Option (Vec × Errno) :=
  let nlen := string.1.length + 1
  if nlen > 1 then
    let (mem, p) := mallocBytes A s.mem nlen
    if p = 0 then some ({ s with mem := mem, argz := p }, ENOMEM)
    else do
      let blk ← mem.heap.get p
      let w ← (string.1 ++ [0]).foldlM (fun w c => sepStep delim c w)
        { blk := blk, wp := 0, nlen := nlen }
      let mem ← store mem p w.blk
      if w.nlen = 0 then some ({ mem := ← free mem p, argz := 0, argzLen := w.nlen }, 0)
      else some ({ mem := mem, argz := p, argzLen := w.nlen }, 0)
  else some ({ s with argz := 0, argzLen := 0 }, 0)

/-- The loop variables of `argz_stringify`; `argz` is an offset in the block. -/
structure StringifyState where
  blk : List UInt8
  argz : Nat
  len : Nat

def argzStringifyBody (sep : Int) (c : StringifyState) :
    StringifyState ⊕ Option (List UInt8) :=
  match strnlen c.len (c.blk.drop c.argz) with
  | none => .inr none
  | some partLen =>
    let argz := c.argz + partLen
    let len := c.len - partLen
    if len ≤ 1 then .inr (some c.blk)
    else
      match writeAt c.blk argz [toChar sep] with
      | none => .inr none
      | some blk => .inl { blk := blk, argz := argz + 1, len := len - 1 }

def argzStringify (sep : Int) (s : Vec) : Option Vec :=
  if s.argzLen > 0 then do
    let blk ← s.mem.heap.get s.argz
    let blk ← (loop (argzStringifyBody sep) (s.argzLen + 1)
      { blk := blk, argz := 0, len := s.argzLen }).join
    let mem ← store s.mem s.argz blk
    some { s with mem := mem }
  else some s

/-! ## argz-replace.c -/

/-- `strndup (s, n)`. -/
def strndup (m : Mem (List UInt8)) (s : List UInt8) (n : Nat) : Mem (List UInt8) × Nat :=
  malloc A m (s.take n ++ [0])

/-- The memory with the buffer `*to` and its length `*to_len`. -/
structure Str where
  mem : Mem (List UInt8)
  toPtr : Nat
  toLen : Nat

def strAppend (buf : List UInt8) (w : Str) : Option Str := do
  let newLen := w.toLen + buf.length
  let (mem, newTo) ← reallocBytes A w.mem w.toPtr (newLen + 1)
  if newTo ≠ 0 then
    let blk ← mem.heap.get newTo
    let mem ← store mem newTo (← writeAt blk w.toLen (buf ++ [0]))
    some { mem := mem, toPtr := newTo, toLen := newLen }
  else
    let mem ← free mem w.toPtr
    some { mem := mem, toPtr := 0, toLen := w.toLen }

/-- The string at address `p` of the vector's block. -/
def stringAt (s : Vec) (p : Nat) : Option (List UInt8) :=
  (strlen (bytesFrom s p)).map fun n => (bytesFrom s p).take n

/-- One pass of `while (to && from)`; `from` is an address in the block at `src`. -/
def replaceBody (src : Nat) (str wth : CString) (w : Str × Nat) : (Str × Nat) ⊕ Option Str :=
  let (w, from') := w
  if w.toPtr = 0 ∨ from' = 0 then .inr (some w)
  else
    match strAppend A wth.1 w with
    | none => .inr none
    | some w =>
      if w.toPtr = 0 then .inl (w, from')
      else
        match stringAt { mem := w.mem, argz := src, argzLen := 0 } from' with
        | none => .inr none
        | some rest =>
          match strstr str.1 rest with
          | some n =>
            match strAppend A (rest.take n) w with
            | none => .inr none
            | some w => .inl (w, from' + n + str.1.length)
          | none =>
            match strAppend A rest w with
            | none => .inr none
            | some w => .inl (w, 0)

/-- The string that the entry `string` at address `arg` is replaced by, built in a buffer of
    its own; the entry's first match is at `n`. -/
def replaceEntry (m : Mem (List UInt8)) (src arg : Nat) (string : List UInt8) (n : Nat)
    (str wth : CString) : Option Str :=
  let (mem, toPtr) := strndup A m string n
  (loop (replaceBody A src str wth) (string.length + 3)
    ({ mem := mem, toPtr := toPtr, toLen := n }, arg + n + str.1.length)).join

/-- The loop variables of `argz_replace`. -/
structure ReplaceState where
  mem : Mem (List UInt8)
  arg : Nat
  dst : Nat
  dstLen : Nat
  delayedCopy : Bool
  err : Errno
  replaceCount : Option Nat

/-- `__argz_append (&dst, &dst_len, …)` or `__argz_add` on the vector being built. -/
def appendDst (buf : List UInt8) (r : ReplaceState) : Option ReplaceState := do
  let (d, err) ← argzAppend A buf { mem := r.mem, argz := r.dst, argzLen := r.dstLen }
  some { r with mem := d.mem, dst := d.argz, dstLen := d.argzLen, err := err }

/-- `if (delayed_copy) { if (arg > src) … delayed_copy = 0; }` -/
def copyDelayed (src : Nat) (r : ReplaceState) : Option ReplaceState :=
  if r.delayedCopy then
    if r.arg > src then
      (appendDst A ((bytesFrom { mem := r.mem, argz := src, argzLen := 0 } src).take
        (r.arg - src)) r).map fun r => { r with delayedCopy := false }
    else some { r with delayedCopy := false }
  else some r

/-- `if (to) { … free (to); }` -/
def addReplaced (src toPtr : Nat) (r : ReplaceState) : Option ReplaceState := do
  let r ← copyDelayed A src r
  if r.err = 0 then
    let blk ← r.mem.heap.get toPtr
    let r ← appendDst A (blk.take (← strlen blk) ++ [0]) r
    some { r with mem := ← free r.mem toPtr }
  else some { r with mem := ← free r.mem toPtr }

/-- The part of the loop body for an entry `string` at `r.arg` with its first match at `n`. -/
def replaceMatch (src : Nat) (str wth : CString) (string : List UInt8) (n : Nat)
    (r : ReplaceState) : Option ReplaceState := do
  let w ← replaceEntry A r.mem src r.arg string n str wth
  let r := { r with mem := w.mem,
                    replaceCount := r.replaceCount.map fun c => (c + 1) % 2 ^ 32 }
  if w.toPtr ≠ 0 then addReplaced A src w.toPtr r else some { r with err := ENOMEM }

/-- One pass of the main loop of `argz_replace` over the vector at `src`. -/
def argzReplaceBody (src srcLen : Nat) (str wth : CString) (r : ReplaceState) :
    ReplaceState ⊕ Option ReplaceState :=
  let s : Vec := { mem := r.mem, argz := src, argzLen := srcLen }
  if r.err ≠ 0 then .inr (some r)
  else
    match argzNext s r.arg with
    | none => .inr none
    | some arg =>
      if arg = 0 then .inr (some r)
      else
        match stringAt s arg with
        | none => .inr none
        | some string =>
          let r := { r with arg := arg }
          let next := match strstr str.1 string with
            | some n => replaceMatch A src str wth string n r
            | none => if r.delayedCopy then some r else appendDst A (string ++ [0]) r
          match next with
          | none => .inr none
          | some r => .inl r

def argzReplace (str : Option CString) (wth : CString) (replaceCount : Option Nat)
    (s : Vec) : Option (Vec × Option Nat × Errno) :=
  match str with
  | none => some (s, replaceCount, 0)
  | some str =>
    if str.1 = [] then some (s, replaceCount, 0)
    else do
      let r ← (loop (argzReplaceBody A s.argz s.argzLen str wth) (s.argzLen + 2)
        { mem := s.mem, arg := 0, dst := 0, dstLen := 0, delayedCopy := true, err := 0,
          replaceCount := replaceCount }).join
      if r.err = 0 then
        if r.delayedCopy then some ({ s with mem := r.mem }, r.replaceCount, r.err)
        else
          let mem ← free r.mem s.argz
          some ({ mem := mem, argz := r.dst, argzLen := r.dstLen }, r.replaceCount, r.err)
      else if r.dstLen > 0 then
        let mem ← free r.mem r.dst
        some ({ s with mem := mem }, r.replaceCount, r.err)
      else some ({ s with mem := r.mem }, r.replaceCount, r.err)

end Librecompat.Argz
