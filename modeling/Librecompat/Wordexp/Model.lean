/-
  `wordexp` and `wordfree` of src/wordexp/wordexp.c, as built with __APPLE__ defined.

  The heap holds blocks of bytes and `we_int_t` structures; a cell of a word vector that was
  never written is `none`. A `Child` gives the answers of the system calls, what the child writes
  and how it ends. `none` means that the code goes wrong: it frees or reads something that is
  not there, leaves a block, or reads a cell that was never written. What `WRDE_SHOWERR` prints
  and `errno` are left out, and so is what the child is told beyond the command line.
-/
import Librecompat.Darwin
import Librecompat.Lib.Bytes
import Librecompat.Lib.Heap
import Librecompat.Wordexp.Check

namespace Librecompat.Wordexp

open Librecompat.Lib

/-! ## The data -/

/-- `wordexp_t`. -/
structure WordexpT where
  weWordc : Nat
  weWordv : Nat
  weOffs : Nat
  deriving DecidableEq

/-- `we_int_t`. -/
structure WeInt where
  wiStrings : Nat
  wiNbytes : Nat
  wiWordv : List (Option Nat)
  deriving DecidableEq

inductive Obj where
  | bytes (bs : List UInt8)
  | int (wi : WeInt)
  deriving DecidableEq

/-- `WE_INT_T (x)`. -/
def weIntT (x : Nat) : Nat := subSize x 16

/-- `WE_WORDV (x)`. -/
def weWordv (x : Nat) : Nat := x + 16

/-- The size of a `we_int_t` with `n` cells. -/
def vectorSize (n : Nat) : Nat := (n * 8 + 16) % 2 ^ 64

/-- How many cells a block of `size` bytes has behind its header. -/
def cellsOf (size : Nat) : Nat := (size - 16) / 8

def readInt (m : Mem Obj) (p : Nat) : Option WeInt :=
  match m.heap.get p with
  | some (.int wi) => some wi
  | _ => none

def readBytes (m : Mem Obj) (p : Nat) : Option (List UInt8) :=
  match m.heap.get p with
  | some (.bytes bs) => some bs
  | _ => none

/-- `realloc` of a string storage to `n` bytes. -/
def resizeBytes (junk : Nat → UInt8) (n : Nat) : Obj → Obj
  | .bytes bs => .bytes (resize junk n bs)
  | b => b

/-- `realloc` of a word vector to `n` cells. -/
def resizeVector (n : Nat) : Obj → Obj
  | .int wi => .int { wi with wiWordv := resizeCells n wi.wiWordv }
  | b => b

/-- `a + d` in `size_t`. -/
def addSize (a : Nat) (d : Int) : Nat := ((a + d) % 2 ^ 64).toNat

/-! ## The child -/

/-- A reply of the kernel to `read`: what is in the pipe, or `-1` with `EINTR` or another
    error. -/
inductive Reply where
  | data (bs : List UInt8)
  | eintr
  | fail

/-- The system calls of one call of `we_askshell`: the descriptors of the two pipes, the results
    of the calls that prepare the spawn and of the spawn itself, the replies to `read` on the
    child's output and the reply to the one on its error output, what the stack held where
    `err_buf` is, and the child's exit status, `none` when `waitpid` fails or the child does not
    exit. -/
structure Child where
  pdes : Option (Nat × Nat)
  perr : Option (Nat × Nat)
  attrInit : Errno
  attrSetflags : Errno
  attrSetsigdefault : Errno
  attrSetsigmask : Errno
  actionsInit : Errno
  actionsStdout : Errno
  actionsStderr : Errno
  spawn : Errno
  stdout : List Reply
  stderr : Reply
  stack : List UInt8
  status : Option Nat

def SIGCHLD : Nat := 20

/-- The memory, the signal mask, and the descriptors closed so far. -/
structure Proc where
  mem : Mem Obj
  sigmask : Finset Nat
  closed : List Nat

/-! ## wordfree -/

def wordfree (m : Mem Obj) (we : WordexpT) : Option (Mem Obj × WordexpT) := do
  if we.weWordv = 0 then some (m, { we with weWordc := 0 })
  else
    let wi ← readInt m (weIntT we.weWordv)
    let m ← free m wi.wiStrings
    let m ← free m (weIntT we.weWordv)
    some (m, { we with weWordv := 0, weWordc := 0 })

/-! ## Starting the child -/

variable (A : Allocator Obj)

/-- `cmd`, which the words are appended to. -/
def command : List UInt8 :=
  chars "[ $# -gt 0 ] && export IFS=\"$1\";/usr/lib/system/wordexp-helper "

/-- `buflen`, an `int`, as the argument of `malloc`. -/
def buflen (words : List UInt8) : Nat :=
  (Int.bmod (command.length + words.length + 1) (2 ^ 32) % 2 ^ 64).toNat

/-- The first call that fails, `0` when none does. -/
def firstError : List Errno → Errno
  | [] => 0
  | err :: errs => if err ≠ 0 then err else firstError errs

/-- From `posix_spawnattr_init` to `posix_spawnattr_destroy`; the result is `spawnerr`. -/
def spawnShell (child : Child) (words : List UInt8) (m : Mem Obj) :
    Option (Mem Obj × Errno) := do
  let err := firstError [child.attrInit, child.attrSetflags, child.attrSetsigdefault,
    child.attrSetsigmask, child.actionsInit, child.actionsStdout, child.actionsStderr]
  if err ≠ 0 then some (m, err)
  else
    let (m, buf) := malloc A m (.bytes (command ++ words ++ [0]))
    if buf = 0 then some (m, ENOMEM)
    else if buflen words < command.length + words.length + 1 then none
    else
      let m ← free m buf
      some (m, child.spawn)

/-! ## Reading from the child -/

/-- `we_read_fully`, with `buffer` read so far; what is left in the pipe comes second. `read`
    takes no more than `INT_MAX` bytes at a time. -/
def weReadFully (len : Nat) : List UInt8 → List Reply → List UInt8 × List Reply
  | buffer, [] => (buffer, [])
  | buffer, r :: rs =>
    let room := len - buffer.length
    if room > INT_MAX then (buffer, r :: rs)
    else
      match r with
      | .eintr => if buffer.length = len then (buffer, rs) else weReadFully len buffer rs
      | .fail => (buffer, rs)
      | .data bs =>
        if bs = [] ∨ room = 0 then (buffer, r :: rs)
        else if bs.length < room then weReadFully len (buffer ++ bs) rs
        else if bs.length = room then (buffer ++ bs, rs)
        else (buffer ++ bs.take room, .data (bs.drop room) :: rs)

def isSpace (c : UInt8) : Bool := c = 32 || (9 ≤ c && c ≤ 13)

def hexDigit (c : UInt8) : Option Nat :=
  if 48 ≤ c ∧ c ≤ 57 then some (c.toNat - 48)
  else if 65 ≤ c ∧ c ≤ 70 then some (c.toNat - 55)
  else if 97 ≤ c ∧ c ≤ 102 then some (c.toNat - 87)
  else none

/-- The value of the leading hexadecimal digits, with `acc` read so far. -/
def hexValue (acc : Nat) : List UInt8 → Nat
  | [] => acc
  | c :: cs =>
    match hexDigit c with
    | some d => hexValue (acc * 16 + d) cs
    | none => acc

/-- `0x` before the digits is skipped. -/
def hexPrefixed : List UInt8 → Nat
  | c :: d :: cs => if c = 48 ∧ (d = 120 ∨ d = 88) then hexValue 0 cs else hexValue 0 (c :: d :: cs)
  | cs => hexValue 0 cs

/-- `strtol (s, NULL, 16)` of at most eight characters. -/
def strtol16 (s : List UInt8) : Int :=
  match s.dropWhile isSpace with
  | [] => 0
  | c :: cs =>
    if c = 45 then -hexPrefixed cs
    else if c = 43 then hexPrefixed cs
    else hexPrefixed (c :: cs)

/-- The error when the shell has not done its work. -/
def shellError (flags : Nat) : Nat := if hasFlag flags WRDE_UNDEF then WRDE_BADVAL else WRDE_SYNTAX

/-- `nwords`, `nbytes` and what is left in the pipe. -/
def readCounts (rs : List Reply) : Option (Int × Int × List Reply) :=
  let (wbuf, rs) := weReadFully 8 [] rs
  if wbuf.length ≠ 8 then none
  else
    let (bbuf, rs) := weReadFully 8 [] rs
    if bbuf.length ≠ 8 then none
    else some (strtol16 wbuf, strtol16 bbuf + strtol16 wbuf, rs)

/-- `err_buf` after the one `read` on the child's error output; `none` when that fails. -/
def readErrors (child : Child) : Option (List UInt8) :=
  match child.stderr with
  | .data bs =>
    let got := bs.take 1023
    if got = [] then some child.stack
    else some (got ++ 0 :: child.stack.drop (got.length + 1))
  | _ => none

/-! ## Making room -/

/-- `we_offs`, if it is used. -/
def offsOf (flags : Nat) (we : WordexpT) : Nat := if hasFlag flags WRDE_DOOFFS then we.weOffs else 0

/-- `realloc` of the vector for `we_wordc` words; a new one gets an empty header. The result is
    `0` when that fails. -/
def growVector (flags : Nat) (m : Mem Obj) (we : WordexpT) : Option (Mem Obj × Nat) := do
  let size := vectorSize (we.weWordc + 1 + offsOf flags we)
  let p := if we.weWordv = 0 then 0 else weIntT we.weWordv
  let (m, nwv) ← realloc A m p
    (.int { wiStrings := 0, wiNbytes := 0, wiWordv := resizeCells (cellsOf size) [] })
    (resizeVector (cellsOf size))
  if nwv ≠ 0 ∧ size < 16 then none else some (m, nwv)

/-- The first `n` pointers of a vector after their storage has moved from `old` to `new`. -/
def rebase (old new : Nat) : Nat → List (Option Nat) → Option (List (Option Nat))
  | 0, cells => some cells
  | n + 1, some p :: cells =>
    (rebase old new n cells).map fun cells =>
      some (if p = 0 then 0 else p + new - old) :: cells
  | _ + 1, _ => none

/-- `realloc` of the string storage of the vector at `nwv` to its `wi_nbytes`, and the first
    `vofs` pointers with it; `false` when that fails. -/
def growStrings (m : Mem Obj) (nwv vofs : Nat) : Option (Mem Obj × Bool) := do
  let wi ← readInt m nwv
  let junk := A.junk m.calls
  let (m, nstrings) ← realloc A m wi.wiStrings (.bytes (resize junk wi.wiNbytes []))
    (resizeBytes junk wi.wiNbytes)
  if nstrings = 0 then some (m, false)
  else
    let cells ← rebase wi.wiStrings nstrings vofs wi.wiWordv
    let m ← store m nwv (.int { wi with wiStrings := nstrings, wiWordv := cells })
    some (m, true)

/-- `nbytes` bytes from the child into the storage of the vector at `nwv`, from `sofs` on;
    `false` when there are fewer. -/
def readWords (m : Mem Obj) (nwv sofs : Nat) (nbytes : Int) (rs : List Reply) :
    Option (Mem Obj × Bool) := do
  let len := (nbytes % 2 ^ 64).toNat
  let (got, _) := weReadFully len [] rs
  if got = [] then some (m, len = 0)
  else
    let wi ← readInt m nwv
    let bs ← writeAt (← readBytes m wi.wiStrings) sofs got
    let m ← store m wi.wiStrings (.bytes bs)
    some (m, got.length = len)

/-- The variables behind the label `cleanup` when there was no error. -/
structure Vars where
  nwords : Int
  nbytes : Int
  vofs : Nat
  sofs : Nat
  errBuf : List UInt8

/-- From the first read to `cleanup`: the new memory and structure, and `error` unless that is
    `0`. -/
def weCollect (child : Child) (flags : Nat) (m : Mem Obj) (we : WordexpT) :
    Option (Mem Obj × WordexpT × Except Nat Vars) :=
  match readCounts child.stdout with
  | none => some (m, we, .error (shellError flags))
  | some (nwords, nbytes, rs) => do
    let vofs := if hasFlag flags WRDE_DOOFFS && hasFlag flags WRDE_APPEND
      then (we.weWordc + we.weOffs) % 2 ^ 64 else we.weWordc
    let we := { we with weWordc := addSize we.weWordc nwords }
    let (m, nwv) ← growVector A flags m we
    if nwv = 0 then some (m, we, .error WRDE_NOSPACE)
    else
      let wi ← readInt m nwv
      let sofs := wi.wiNbytes
      let m ← store m nwv (.int { wi with wiNbytes := addSize sofs nbytes })
      let we := { we with weWordv := weWordv nwv }
      let (m, grown) ← growStrings A m nwv vofs
      if !grown then some (m, we, .error WRDE_NOSPACE)
      else
        let (m, whole) ← readWords m nwv sofs nbytes rs
        if !whole then some (m, we, .error (shellError flags))
        else
          match readErrors child with
          | none => some (m, we, .error WRDE_NOSPACE)
          | some errBuf =>
            some (m, we, .ok { nwords := nwords, nbytes := nbytes, vofs := vofs, sofs := sofs,
                               errBuf := errBuf })

/-! ## The result -/

/-- What the text in `err_buf` says about the words; `none` when it holds no string. -/
def errorText (errBuf : List UInt8) : Option (Option Nat) :=
  if 0 ∉ errBuf then none
  else
    let text := cstr errBuf
    some <|
      match strstr (chars "command substitution") text with
      | none => none
      | some k =>
        if (strstr (chars "syntax error") (text.drop (k + 20))).isSome then
          some (if (strstr (chars " unbound variable") text).isSome then WRDE_BADVAL
            else WRDE_SYNTAX)
        else none

/-- The loop over the words: `n` passes from the cell `vofs` on, with the bytes `rest` at `p`.
    The result is the cell behind the last one, `none` when a word has no end. -/
def storeWords : Nat → List UInt8 → Nat → Nat → List (Option Nat) →
    Option (Option Nat × List (Option Nat))
  | 0, _, _, vofs, cells => some (some vofs, cells)
  | n + 1, rest, p, vofs, cells =>
    if vofs < cells.length then
      match strlen rest with
      | none => some (none, cells.set vofs (some p))
      | some k =>
        storeWords n (rest.drop (k + 1)) (p + k + 1) (vofs + 1) (cells.set vofs (some p))
    else none

/-- Null pointers in the first `offs` cells. -/
def fillOffs (offs : Nat) (cells : List (Option Nat)) : Option (List (Option Nat)) :=
  writeAt cells 0 (List.replicate offs (some 0))

/-- Break the words out into the vector; the result is the return value. `nwords` counts down to
    `0`, from a negative value by way of the largest one. -/
def breakWords (flags : Nat) (m : Mem Obj) (we : WordexpT) (v : Vars) :
    Option (Mem Obj × Nat) := do
  let nwv := weIntT we.weWordv
  let wi ← readInt m nwv
  let fill := v.vofs = 0 ∧ hasFlag flags WRDE_DOOFFS
  let cells ← (if fill then fillOffs we.weOffs wi.wiWordv else some wi.wiWordv)
  let vofs := if fill then we.weOffs else v.vofs
  let bs ← readBytes m wi.wiStrings
  let (stop, cells) ← storeWords (v.nwords % 2 ^ 64).toNat
    ((bs.drop v.sofs).take v.nbytes.toNat) (wi.wiStrings + v.sofs) vofs cells
  match stop with
  | none =>
    let m ← store m nwv (.int { wi with wiWordv := cells })
    some (m, WRDE_NOSPACE)
  | some vofs =>
    let cells ← writeAt cells vofs [some 0]
    let m ← store m nwv (.int { wi with wiWordv := cells })
    some (m, 0)

def weAskshell (child : Child) (flags : Nat) (words : List UInt8) (s : Proc) (we : WordexpT) :
    Option (Proc × WordexpT × Nat) :=
  match child.pdes with
  | none => some (s, we, WRDE_NOSPACE)
  | some pdes =>
    match child.perr with
    | none => some ({ s with closed := s.closed ++ [pdes.1, pdes.2] }, we, WRDE_NOSPACE)
    | some perr => do
      let oldsigblock := s.sigmask
      let s := { s with sigmask := insert SIGCHLD s.sigmask }
      let (mem, spawnerr) ← spawnShell A child words s.mem
      let s := { s with mem := mem }
      if spawnerr ≠ 0 then
        some ({ s with closed := s.closed ++ [pdes.1, pdes.2, perr.1, perr.2] }, we, WRDE_NOSPACE)
      else
        let s := { s with closed := s.closed ++ [pdes.2, perr.2] }
        let (mem, we, result) ← weCollect A child flags s.mem we
        let s := { mem := mem, sigmask := oldsigblock, closed := s.closed ++ [pdes.1, perr.1] }
        match result with
        | .error error => some (s, we, error)
        | .ok v =>
          if child.status ≠ some 0 then some (s, we, shellError flags)
          else
            match ← errorText v.errBuf with
            | some error => some (s, we, error)
            | none =>
              let (mem, error) ← breakWords flags s.mem we v
              some ({ s with mem := mem }, we, error)

/-! ## wordexp -/

/-- The copy of the vector and the strings for `WRDE_APPEND`; the result is the new vector, `0`
    when there is no memory. -/
def copyWords (flags : Nat) (m : Mem Obj) (we0 : WordexpT) : Option (Mem Obj × Nat) := do
  let vofs := (we0.weWordc + offsOf flags we0) % 2 ^ 64
  let size := vectorSize (vofs + 1)
  let (m, wi) := malloc A m
    (.int { wiStrings := 0, wiNbytes := 0, wiWordv := resizeCells (cellsOf size) [] })
  if wi = 0 then some (m, 0)
  else if size < 16 then none
  else
    let wi0 ← (if we0.weWordv = 0 then none else readInt m (weIntT we0.weWordv))
    let cells ← readAt wi0.wiWordv 0 (cellsOf size)
    let junk := A.junk m.calls
    let (m, strings) := malloc A m (.bytes (resize junk wi0.wiNbytes []))
    if strings = 0 then
      let m ← free m wi
      some (m, 0)
    else
      let bs ← (if wi0.wiNbytes = 0 then some []
        else (readBytes m wi0.wiStrings).bind fun bs => readAt bs 0 wi0.wiNbytes)
      let m ← store m strings (.bytes bs)
      let cells ← rebase wi0.wiStrings strings vofs cells
      let m ← store m wi (.int { wi0 with wiStrings := strings, wiWordv := cells })
      some (m, wi)

/-- The structure that the call works on, `none` when there is no memory. -/
def startWords (flags : Nat) (m : Mem Obj) (we0 : WordexpT) :
    Option (Mem Obj × Option WordexpT) :=
  if hasFlag flags WRDE_APPEND then
    (copyWords A flags m we0).map fun (m, wi) =>
      (m, if wi = 0 then none else some { we0 with weWordv := weWordv wi })
  else some (m, some { we0 with weWordc := 0, weWordv := 0 })

/-- `wordexp` on the string at the start of the memory `words`. -/
def wordexp (child : Child) (words : List UInt8) (flags : Nat) (s : Proc) (we0 : WordexpT) :
    Option (Proc × WordexpT × Nat) := do
  let error ← weCheck words flags
  if error ≠ 0 then some (s, we0, error)
  else
    match ← startWords A flags s.mem we0 with
    | (mem, none) => some ({ s with mem := mem }, we0, WRDE_NOSPACE)
    | (mem, some we) =>
      let (s, we, error) ← weAskshell A child flags (cstr words) { s with mem := mem } we
      if error ≠ 0 ∧ error ≠ WRDE_NOSPACE then
        let (mem, _) ← wordfree s.mem we
        some ({ s with mem := mem }, we0, error)
      else
        let mem ← (if hasFlag flags WRDE_REUSE then (wordfree s.mem we0).map Prod.fst
          else some s.mem)
        some ({ s with mem := mem }, we, error)

end Librecompat.Wordexp
