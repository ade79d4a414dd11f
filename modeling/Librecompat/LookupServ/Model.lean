/-
  `__lookup_serv` of src/musl/network/lookup_serv.c.

  The file is read through a buffer of 128 bytes, so `fgets` hands out `fragments` of at most 127
  bytes: whole lines and pieces of longer ones. `matchLine` is one pass of the loop. `search`
  keeps with each service the offset of the fragment that it was read from; the source does not
  store it.
-/
import Librecompat.Strtol
import Librecompat.Netconfig.Model

namespace Librecompat.LookupServ

open Librecompat.Lib

def IPPROTO_TCP : Nat := 6
def IPPROTO_UDP : Nat := 17
def EAI_SERVICE : Nat := 9
def AI_NUMERICSERV : Nat := 0x1000
def MAXSERVS : Nat := 2

/-- `struct service`. -/
structure Service where
  port : UInt16
  proto : Nat
  deriving DecidableEq

/-- What successive calls of `fgets (line, 128, f)` store, each with its offset in the file. -/
def fragmentsFrom : Nat → Nat → List UInt8 → List (Nat × List UInt8)
  | 0, _, _ => []
  | _ + 1, _, [] => []
  | fuel + 1, off, file =>
    let (line, rest) := Netconfig.fgets 128 file
    (off, line) :: fragmentsFrom fuel (off + line.length) rest

def fragments (file : List UInt8) : List (Nat × List UInt8) := fragmentsFrom file.length 0 file

/-- `if ((p = strchr (line, '#'))) *p++ = '\n', *p = 0;` -/
def cutComment (line : List UInt8) : List UInt8 :=
  if 35 ∈ line then line.takeWhile (· ≠ 35) ++ [10] else line

/-- The loop that finds the service name, from offset `p` on; at most `n` passes. -/
def findName (name line : List UInt8) : Nat → Nat → Option Nat
  | 0, _ => none
  | n + 1, p =>
    match strstr name (line.drop p) with
    | none => none
    | some k =>
      if p + k > 0 ∧ !isSpace (line.getD (p + k - 1) 0) then findName name line n (p + k + 1)
      else if p + k + name.length < line.length ∧
          !isSpace (line.getD (p + k + name.length) 0) then
        findName name line n (p + k + 1)
      else some (p + k)

/-- One pass of the loop: what it stores, if anything. -/
def matchLine (name : List UInt8) (proto : Nat) (line : List UInt8) : Option Service :=
  let line := cutComment line
  match findName name line (line.length + 1) 0 with
  | none => none
  | some _ =>
    let p := line.dropWhile fun c => !isSpace c
    let (port, stop) := strtoul p
    let z := p.drop stop
    if port > 65535 ∨ stop = 0 then none
    else if (chars "/udp").isPrefixOf z then
      if proto = IPPROTO_TCP then none else some { port := UInt16.ofNat port, proto := IPPROTO_UDP }
    else if (chars "/tcp").isPrefixOf z then
      if proto = IPPROTO_UDP then none else some { port := UInt16.ofNat port, proto := IPPROTO_TCP }
    else none

/-- The loop, with what is in `buf`. -/
def search (name : List UInt8) (proto : Nat) :
    List (Nat × List UInt8) → List (Nat × Service) → List (Nat × Service)
  | [], buf => buf
  | (off, line) :: lines, buf =>
    if buf.length < MAXSERVS then
      match matchLine name proto line with
      | none => search name proto lines buf
      | some s => search name proto lines (buf ++ [(off, s)])
    else buf

/-- The services for a port that is given as a number. -/
def numericServices (port proto : Nat) : List Service :=
  (if proto ≠ IPPROTO_UDP then [{ port := UInt16.ofNat port, proto := IPPROTO_TCP }] else []) ++
  (if proto ≠ IPPROTO_TCP then [{ port := UInt16.ofNat port, proto := IPPROTO_UDP }] else [])

/-- `return cnt > 0 ? cnt : EAI_SERVICE`. -/
def answer (buf : List Service) : Except Nat (List Service) :=
  if buf = [] then .error EAI_SERVICE else .ok buf

/-- `__lookup_serv`: the services in `buf`, or the error. `services` is the file, if it can be
    opened. -/
def lookupServ (services : Option (List UInt8)) (name : Option (List UInt8)) (proto flags : Nat) :
    Except Nat (List Service) :=
  if name = some [] then .error EAI_SERVICE
  else
    let (port, stop) := (name.map strtoul).getD (0, 0)
    match name.filter fun s => stop < s.length with
    | none =>
      if port > 65535 then .error EAI_SERVICE else .ok (numericServices port proto)
    | some name =>
      if flags &&& AI_NUMERICSERV ≠ 0 then .error EAI_SERVICE
      else
        match services with
        | none => .error EAI_SERVICE
        | some file => answer ((search name proto (fragments file) []).map (·.2))

end Librecompat.LookupServ
