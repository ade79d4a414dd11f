/-
  `setproctitle.c`.

  Strings lie in a byte memory, pointer arrays (`argv`, the environment and the copies made of them)
  are blocks of a heap of their own that hold lists of pointers; `0` is `NULL`. The functions that
  allocate may fail at any call. `none` is an access outside of live memory.

  What the C library does is fixed by `Outside`: where blocks are placed and which calls fail, what
  `getprogname` answers, and `strnvis`, which puts a NUL into its 2048 bytes. What `vsnprintf` makes
  of a format and the arguments belongs to the call. The array `ptitle` is a local variable and not
  part of the memory. The `int` counters are natural numbers; `envc` is the one that can overflow,
  and that is an error as well.

  The mutex is left out: one call runs after the other.
-/
import Librecompat.Darwin
import Librecompat.Lib.Heap
import Librecompat.Lib.Run
import Librecompat.Lib.Strings

namespace Librecompat.Setproctitle

open Librecompat.Lib

/-- `SPT_BUFSIZE` -/
def sptBufsize : Nat := 2048

/-- The C library. -/
structure Outside where
  place : Memory.Allocator Unit 1
  fails : Nat → Bool
  arrays : Allocator (List Nat)
  getprogname : Option CString
  strnvis : List UInt8 → { bs : List UInt8 // bs.length = sptBufsize ∧ 0 ∈ bs }

/-- The memory, what `_NSGetArgv`, `_NSGetArgc` and `_NSGetEnviron` point at (`none` when they
    return `NULL`), and the static variables. -/
structure State where
  mem : Memory Unit
  arrays : Mem (List Nat)
  argv : Option Nat
  argc : Option Int
  environ : Option Nat
  sptSpaceInit : Bool
  sptStart : Nat
  sptSpaceLen : Nat
  sptProgname : Nat
  buf : Nat
  obuf : Nat
  fastUpdate : Bool

/-- One call of `setproctitle`, or of `setproctitle_fast`. `vsnprintf` is the text that a format
    and the arguments of the call make, without its NUL. -/
structure Call where
  fast : Bool
  fmt : Option CString
  vsnprintf : List UInt8 → List UInt8

/-- What `for (i = 0; i < argc && argv[i] != NULL; i++)` walks over. -/
def upTo : Nat → List Nat → Option (List Nat)
  | 0, _ => some []
  | _ + 1, [] => none
  | n + 1, p :: ps => if p = 0 then some [] else (upTo n ps).map (p :: ·)

/-- What `for (i = 0; envp[i] != NULL; i++)` walks over. -/
def upToNull : List Nat → Option (List Nat)
  | [] => none
  | p :: ps => if p = 0 then some [] else (upToNull ps).map (p :: ·)

/-- `for (envc = 0; envp[envc] != NULL; envc++)`; `envc` is an `int`. -/
def countEnviron (slots : List Nat) : Option (List Nat) := do
  let envs ← upToNull slots
  if envs.length ≤ INT_MAX then some envs else none

variable (O : Outside)

/-! ## `spt_join_argv` -/

/-- The first loop, which adds up `need`. -/
def joinNeed (m : Memory Unit) (first : Bool) (need : Nat) : List Nat → Option Nat
  | [] => some need
  | p :: ps => do
    let n ← m.strlen p
    joinNeed m false (if first then need + n else need + n + 1) ps

/-- The second loop, which writes at `out + off`. -/
def joinWrite (m : Memory Unit) (out : Nat) (first : Bool) (off : Nat) :
    List Nat → Option (Memory Unit × Nat)
  | [] => some (m, off)
  | p :: ps => do
    let n ← m.strlen p
    let (m, off) ← (if first then some (m, off)
      else (m.store 0 (out + off) 32).map fun m => (m, off + 1))
    let bs ← m.loads 0 p n
    let m ← m.stores 0 (out + off) bs
    joinWrite m out false (off + n) ps

def sptJoinArgv (s : State) (argv : Nat) (argc : Int) : Option (State × Nat) :=
  if argv = 0 ∨ argc ≤ 0 then some (s, 0)
  else do
    let slots ← s.arrays.heap.get argv
    let args ← upTo argc.toNat slots
    let need ← joinNeed s.mem true 1 args
    let (m, out) := s.mem.malloc O.place O.fails need
    if out = 0 then some ({ s with mem := m }, 0)
    else do
      let (m, off) ← joinWrite m out true 0 args
      let m ← m.store 0 (out + off) 0
      some ({ s with mem := m }, out)

/-! ## `spt_detach_argv_locked` -/

/-- A new array of `n` slots with a copy of each of the strings at `ps`; `0`, with everything freed
    again, when there is no memory for one of them. The slots behind the copies are `NULL`. -/
def copyStrings (s : State) (n : Nat) (ps : List Nat) : Option (State × Nat) :=
  let (arrays, dupv) := malloc O.arrays s.arrays (List.replicate n 0)
  if dupv = 0 then some ({ s with arrays := arrays }, 0)
  else do
    let (m, qs) ← s.mem.strdupEach O.place O.fails ps
    let arrays ← store arrays dupv (qs ++ List.replicate (n - qs.length) 0)
    if qs.length < ps.length then do
      let m ← m.freeEach qs.reverse
      let arrays ← free arrays dupv
      some ({ s with mem := m, arrays := arrays }, 0)
    else some ({ s with mem := m, arrays := arrays }, dupv)

def sptDetachArgvLocked (s : State) (argv : Nat) (argc : Int) : Option (State × Bool) :=
  if argv = 0 ∨ argc ≤ 0 then some (s, false)
  else do
    let slots ← s.arrays.heap.get argv
    let args ← upTo argc.toNat slots
    let (s, dupv) ← copyStrings O s argc.toNat args
    if dupv = 0 then some (s, false)
    else do
      let dups ← s.arrays.heap.get dupv
      let arrays ← store s.arrays argv (dups.take args.length ++ slots.drop args.length)
      let arrays ← free arrays dupv
      some ({ s with arrays := arrays }, true)

/-! ## `spt_prepare_space_locked` -/

/-- Both loops that move `last` to the end of a string when it is `next`. -/
def walk (m : Memory Unit) (next : Nat → Nat → Bool) (last : Nat) : List Nat → Option Nat
  | [] => some last
  | p :: ps =>
    if next last p then do
      let n ← m.strlen p
      walk m next (p + n) ps
    else walk m next last ps

def walkArgv (m : Memory Unit) : Nat → List Nat → Option Nat :=
  walk m fun last p => last = 0 ∨ last + 1 = p

def walkEnviron (m : Memory Unit) : Nat → List Nat → Option Nat :=
  walk m fun last p => last ≠ 0 ∧ last + 1 = p

/-- `argv[0]` -/
def argvHead (s : State) (argv : Nat) : Option Nat := do (← s.arrays.heap.get argv).head?

/-- `spt_progname = strdup (getprogname ())`, or else of `argv[0]`. -/
def saveProgname (s : State) (argv : Nat) : Option State := do
  let s ← (match O.getprogname with
    | some name => (s.mem.newStr O.place O.fails name.1).map fun (m, q) =>
      { s with mem := m, sptProgname := q }
    | none => some s)
  if s.sptProgname = 0 then do
    let (m, q) ← s.mem.strdup O.place O.fails (← argvHead s argv)
    some { s with mem := m, sptProgname := q }
  else some s

/-- `*saved_argv = spt_join_argv (argv, argc)`, or else a copy of `spt_progname`. -/
def saveArgv (s : State) (argv : Nat) (argc : Int) : Option State := do
  let (s, out) ← sptJoinArgv O s argv argc
  if out = 0 ∧ s.sptProgname ≠ 0 then do
    let (m, q) ← s.mem.strdup O.place O.fails s.sptProgname
    some { s with mem := m, obuf := q }
  else some { s with obuf := out }

/-- What follows the tests of the pointers. -/
def claimSpace (s : State) (argv : Nat) (argc : Int) (envp : Nat) : Option (State × Bool) := do
  let argv0 ← argvHead s argv
  let envs ← countEnviron (← s.arrays.heap.get envp)
  let (s, newenv) ← copyStrings O s (envs.length + 1) envs
  if newenv = 0 then some (s, false)
  else do
    let s := { s with environ := some newenv }
    let args ← upTo argc.toNat (← s.arrays.heap.get argv)
    let last ← walkArgv s.mem 0 args
    let last ← walkEnviron s.mem last envs
    if last = 0 ∨ last < argv0 then some (s, false)
    else do
      let s := { s with sptStart := argv0, sptSpaceLen := last - argv0 + 1 }
      if s.sptSpaceLen ≤ 1 then some (s, false)
      else do
        let (s, detached) ← sptDetachArgvLocked O s argv argc
        if detached then do
          let s ← saveProgname O s argv
          let s ← saveArgv O s argv argc
          some ({ s with sptSpaceInit := true }, true)
        else some (s, false)

def sptPrepareSpaceLocked (s : State) : Option (State × Bool) :=
  if s.sptSpaceInit then some (s, s.sptStart ≠ 0 ∧ s.sptSpaceLen > 1)
  else
    match s.argv, s.argc, s.environ with
    | some argv, some argc, some envp =>
      if argv = 0 ∨ envp = 0 ∨ argc ≤ 0 then some (s, false)
      else do
        let argv0 ← argvHead s argv
        if argv0 = 0 then some (s, false) else claimSpace O s argv argc envp
    | _, _, _ => some (s, false)

/-! ## `setproctitle_internal` -/

/-- `prog` -/
def prog (s : State) : Option (List UInt8) :=
  if s.sptProgname ≠ 0 then s.mem.readStr s.sptProgname else some (chars "program")

/-- Put the title into `buf`; `false` when there is none. -/
def fillBuf (s : State) (call : Call) : Option (Memory Unit × Bool) :=
  match call.fmt with
  | some fmt => do
    let (m, fmt, len) ← (if fmt.1.head? = some 45 then
        (s.mem.store 0 s.buf 0).map fun m => (m, fmt.1.tail, 0)
      else do
        let m ← s.mem.strlcpy s.buf ((← prog s) ++ chars ": ") sptBufsize
        let len ← m.strlen s.buf
        some (m, fmt.1, len))
    let m ← m.strlcpy (s.buf + len) (call.vsnprintf fmt) (sptBufsize - len)
    some (m, true)
  | none =>
    if s.obuf = 0 then some (s.mem, false)
    else do
      let c ← s.mem.load 0 s.obuf
      if c = 0 then some (s.mem, false)
      else do
        let m ← s.mem.strlcpy s.buf (← s.mem.readStr s.obuf) sptBufsize
        some (m, true)

/-- Copy `buf` into the claimed space, with the special characters made visible. -/
def showBuf (s : State) : Option State := do
  let ptitle := cstr (O.strnvis (← s.mem.readStr s.buf)).1
  let len := ptitle.length
  let m ← s.mem.strlcpy s.sptStart ptitle s.sptSpaceLen
  let m ← (if len < s.sptSpaceLen then
      m.stores 0 (s.sptStart + len) (List.replicate (s.sptSpaceLen - len) 0)
    else m.store 0 (s.sptStart + s.sptSpaceLen - 1) 0)
  some { s with mem := m }

/-- `buf = malloc (SPT_BUFSIZE)`, unless there is one. -/
def allocBuf (s : State) : State :=
  if s.buf = 0 then
    let (m, q) := s.mem.malloc O.place O.fails sptBufsize
    { s with mem := m, buf := q }
  else s

/-- The result is `spt_start`, or `0` for `NULL`. -/
def setproctitleInternal (s : State) (call : Call) : Option (State × Nat) := do
  let (s, ready) ← sptPrepareSpaceLocked O s
  if ready then
    let s := allocBuf O s
    if s.buf = 0 then some (s, 0)
    else do
      let (m, filled) ← fillBuf s call
      let s := { s with mem := m }
      if filled then do
        let s ← showBuf O s
        some (s, s.sptStart)
      else some (s, 0)
  else some (s, 0)

/-! ## The two functions -/

def setproctitleFast (s : State) (call : Call) : Option (State × Nat) := do
  let (s, title) ← setproctitleInternal O s call
  some (if title ≠ 0 ∧ s.fastUpdate = false then { s with fastUpdate := true } else s, title)

def setproctitle (s : State) (call : Call) : Option (State × Nat) := do
  let (s, title) ← setproctitleInternal O s call
  some (if title ≠ 0 then { s with fastUpdate := false } else s, title)

/-- A call, and whether it has set the title. -/
def callResult (s : State) (call : Call) : Option (State × Nat) :=
  if call.fast then setproctitleFast O s call else setproctitle O s call

def step (s : State) (call : Call) : Option State := (callResult O s call).map (·.1)

end Librecompat.Setproctitle
