/-
  `getservent_r` and `endservent_r` of src/netdb/servent_r.c over a heap.

  The heap holds the line buffer and the array of aliases, a `char *` is a block and an offset
  into it. `fgetln` gives one line of the file after the other, so an open file is the list of
  the lines that are left. `none` means that the code goes wrong: it reads or writes outside a
  block, frees something that is not there, or an `int` overflows. `getservents` is a run of
  calls on one state, each with what its `struct servent` says when the call returns.
-/
import Librecompat.Darwin
import Librecompat.Strtol
import Librecompat.Lib.Cut
import Librecompat.Lib.Heap

namespace Librecompat.Services

open Librecompat.Lib

def USHRT_MAX : Int := 65535

/-- A `char *` into a block. -/
structure CharPtr where
  block : Nat
  off : Nat
  deriving DecidableEq

def CharPtr.add (p : CharPtr) (n : Nat) : CharPtr := { p with off := p.off + n }

/-- What a block holds; a cell that was never written is `none`, a null pointer `some none`. -/
inductive Obj where
  | bytes (bs : List UInt8)
  | slots (cells : List (Option (Option CharPtr)))

/-- `struct servent_data`; a null `fp` is `none`. -/
structure ServentData where
  fp : Option (List (List UInt8))
  aliases : Nat
  maxaliases : Nat
  stayopen : Nat
  line : Nat

/-- `struct servent_data sd = {0}`. -/
def ServentData.zero : ServentData :=
  { fp := none, aliases := 0, maxaliases := 0, stayopen := 0, line := 0 }

/-- `struct servent`. -/
structure Servent where
  sName : CharPtr
  sAliases : Nat
  sPort : UInt16
  sProto : CharPtr

/-- The heap and the state that the calls share. -/
structure Proc where
  mem : Mem Obj
  sd : ServentData

/-! ## Memory -/

variable (A : Allocator Obj)

/-- The lines that `fgetln` hands out, each with its newline. -/
def fgetlnLines : List UInt8 → List (List UInt8)
  | [] => []
  | c :: file =>
    if c = 10 then [c] :: fgetlnLines file
    else
      match fgetlnLines file with
      | [] => [[c]]
      | line :: lines => (c :: line) :: lines

/-- The string at `p`. -/
def str (m : Mem Obj) (p : CharPtr) : Option (List UInt8) :=
  match m.heap.get p.block with
  | some (.bytes bs) => readStr bs p.off
  | _ => none

/-- `*p = '\0'`. -/
def setNul (m : Mem Obj) (p : CharPtr) : Option (Mem Obj) :=
  match m.heap.get p.block with
  | some (.bytes bs) =>
    if p.off < bs.length then store m p.block (.bytes (bs.set p.off 0)) else none
  | _ => none

/-- `memcpy (p, bytes, n)` to the start of a block. -/
def memcpy (m : Mem Obj) (p : Nat) (bytes : List UInt8) : Option (Mem Obj) :=
  match m.heap.get p with
  | some (.bytes bs) => (writeAt bs 0 bytes).bind fun bs => store m p (.bytes bs)
  | _ => none

/-- `array[i] = p`. -/
def setSlot (m : Mem Obj) (array i : Nat) (p : Option CharPtr) : Option (Mem Obj) :=
  match m.heap.get array with
  | some (.slots cells) =>
    if i < cells.length then store m array (.slots (cells.set i (some p))) else none
  | _ => none

def resizeBytes (junk : Nat → UInt8) (n : Nat) : Obj → Obj
  | .bytes bs => .bytes (resize junk n bs)
  | b => b

def resizeSlots (n : Nat) : Obj → Obj
  | .slots cells => .slots (resizeCells n cells)
  | b => b

/-- `htons` on a little-endian machine. -/
def htons (port : UInt16) : UInt16 := port <<< 8 ||| port >>> 8

/-! ## The calls -/

/-- `endservent_r`. -/
def endserventR (s : Proc) : Option Proc := do
  let mem ← free s.mem s.sd.aliases
  let mem ← free mem s.sd.line
  some { mem := mem, sd := ServentData.zero }

/-- How the code behind `again:` goes on: it starts again, returns -1, or returns 0. -/
inductive Outcome where
  | again
  | fail
  | entry (se : Servent)

/-- Double the array; `false` is `return (-1)`. -/
def growAliases (s : Proc) : Option (Proc × Bool) := do
  let (mem, p) ← realloc A s.mem s.sd.aliases
    (.slots (resizeCells (s.sd.maxaliases * 2) [])) (resizeSlots (s.sd.maxaliases * 2))
  if p = 0 then
    let s ← endserventR { s with mem := mem }
    some (s, false)
  else if s.sd.maxaliases * 2 > INT_MAX then none
  else
    some ({ mem := mem, sd := { s.sd with aliases := p, maxaliases := s.sd.maxaliases * 2 } }, true)

/-- The loop over the aliases: `q` is the next cell, `cp` what is left of the line. At most `n`
    passes; `none` in the result is `return (-1)`. -/
def aliasLoop : Nat → Proc → Nat → Option CharPtr → Option (Proc × Option Nat)
  | 0, _, _, _ => none
  | _ + 1, s, q, none => some (s, some q)
  | n + 1, s, q, some cp => do
    let text ← str s.mem cp
    match text with
    | [] => some (s, some q)
    | c :: _ =>
      if c ∈ chars " \t" then aliasLoop n s q (some (cp.add 1))
      else
        let (s, ok) ← (if q = s.sd.maxaliases - 1 then growAliases A s else some (s, true))
        if !ok then some (s, none)
        else
          let mem ← setSlot s.mem s.sd.aliases q (some cp)
          match strpbrk (chars " \t") text with
          | none => aliasLoop n { s with mem := mem } (q + 1) none
          | some k =>
            let mem ← setNul mem (cp.add k)
            aliasLoop n { s with mem := mem } (q + 1) (some (cp.add (k + 1)))

/-- The array for the aliases, allocated by the first line that has any; `false` is
    `return (-1)`. -/
def ensureAliases (s : Proc) : Option (Proc × Bool) :=
  if s.sd.aliases = 0 then
    let (mem, p) := malloc A s.mem (.slots (List.replicate 10 (some none)))
    let s := { s with mem := mem, sd := { s.sd with maxaliases := 10, aliases := p } }
    if p = 0 then (endserventR s).map fun s => (s, false) else some (s, true)
  else some (s, true)

/-- What follows the port: `cp` is the protocol. -/
def readAliases (name cp : CharPtr) (port : UInt16) (s : Proc) : Option (Proc × Outcome) := do
  let (s, ok) ← ensureAliases A s
  if !ok then some (s, .fail)
  else
    let proto ← str s.mem cp
    let (mem, rest) ← (match strpbrk (chars " \t") proto with
      | none => some (s.mem, none)
      | some k => (setNul s.mem (cp.add k)).map fun mem => (mem, some (cp.add (k + 1))))
    let (s, q) ← aliasLoop A (proto.length + 2) { s with mem := mem } 0 rest
    match q with
    | none => some (s, .fail)
    | some q => do
      let mem ← setSlot s.mem s.sd.aliases q none
      some ({ s with mem := mem },
        .entry { sName := name, sAliases := s.sd.aliases, sPort := port, sProto := cp })

/-- The fields of the line that has been copied to `cp`. -/
def readFields (cp : CharPtr) (s : Proc) : Option (Proc × Outcome) := do
  let text ← str s.mem cp
  match strpbrk (chars " \t") text with
  | none => some (s, .again)
  | some i => do
    let mem ← setNul s.mem (cp.add i)
    let rest ← str mem (cp.add (i + 1))
    let p := cp.add (i + 1 + (rest.takeWhile (· ∈ chars " \t")).length)
    let rest ← str mem p
    match strpbrk (chars ",/") rest with
    | none => some ({ s with mem := mem }, .again)
    | some j => do
      let mem ← setNul mem (p.add j)
      let port ← str mem p
      let (l, stop) := strtol port
      if stop = 0 ∨ stop ≠ port.length ∨ l < 0 ∨ l > USHRT_MAX then
        some ({ s with mem := mem }, .again)
      else
        readAliases A cp (p.add (j + 1)) (htons (UInt16.ofInt l)) { s with mem := mem }

/-- What is copied of the line `p`, unless it is empty or starts as a comment. -/
def lineText (p : List UInt8) : Option (List UInt8) :=
  if p = [] ∨ p.head? = some 35 ∨ p.head? = some 10 then none
  else
    let len := if p.getLast? = some 10 then p.length - 1 else p.length
    match (p.take len).idxOf? 35 with
    | some i => some (p.take i)
    | none => some (p.take len)

/-- The code from `again:` on, `p` being the line that `fgetln` has given. -/
def readLine (p : List UInt8) (s : Proc) : Option (Proc × Outcome) :=
  match lineText p with
  | none => some (s, .again)
  | some text => do
    let junk := A.junk s.mem.calls
    let (mem, cp) ← realloc A s.mem s.sd.line (.bytes (resize junk (text.length + 1) []))
      (resizeBytes junk (text.length + 1))
    if cp = 0 then some ({ s with mem := mem }, .fail)
    else
      let mem ← memcpy mem cp (text ++ [0])
      readFields A { block := cp, off := 0 } { mem := mem, sd := { s.sd with line := cp } }

/-- The lines until one does not go `again`. -/
def readLines : List (List UInt8) → Proc → Option (Proc × Option Servent)
  | [], s => some ({ s with sd := { s.sd with fp := some [] } }, none)
  | p :: lines, s => do
    let (s, outcome) ← readLine A p { s with sd := { s.sd with fp := some lines } }
    match outcome with
    | .again => readLines lines s
    | .fail => some (s, none)
    | .entry se => some (s, some se)

/-- `getservent_r`: `none` for -1. `services` is the file that `fopen` opens, if it can. -/
def getserventR (services : Option (List UInt8)) (s : Proc) : Option (Proc × Option Servent) :=
  match s.sd.fp with
  | some lines => readLines A lines s
  | none =>
    match services with
    | some file => readLines A (fgetlnLines file) s
    | none => some (s, none)

/-! ## Runs -/

/-- What a `struct servent` says. -/
structure Service where
  name : List UInt8
  port : UInt16
  proto : List UInt8
  aliases : List (List UInt8)
  deriving DecidableEq

/-- The pointers before the first null pointer. -/
def untilNull : List (Option (Option CharPtr)) → Option (List CharPtr)
  | some none :: _ => some []
  | some (some p) :: cells => (untilNull cells).map fun ps => p :: ps
  | _ => none

/-- Read the strings that a `struct servent` points to. -/
def decode (m : Mem Obj) (se : Servent) : Option Service := do
  let name ← str m se.sName
  let proto ← str m se.sProto
  match m.heap.get se.sAliases with
  | some (.slots cells) => do
    let ps ← untilNull cells
    let aliases ← ps.mapM (str m)
    some { name := name, port := se.sPort, proto := proto, aliases := aliases }
  | _ => none

/-- `n` calls, each with what its result says when it returns; `none` for -1. -/
def getservents (services : Option (List UInt8)) :
    Nat → Proc → Option (Proc × List (Option Service))
  | 0, s => some (s, [])
  | n + 1, s => do
    let (s, r) ← getserventR A services s
    let v ← (match r with
      | none => some none
      | some se => (decode s.mem se).map some)
    let (s, vs) ← getservents services n s
    some (s, v :: vs)

end Librecompat.Services
