/-
  src/rpc/getnetpath.c over the netconfig database.

  The structures of this file are in a heap of their own; the copy of `NETPATH` that is cut into
  tokens is a string of the other heap. A cursor is an offset into that string, `none` for the
  null pointer. `none` means that the code goes wrong. `errno` is left out.
-/
import Librecompat.Netconfig.Model

namespace Librecompat.Netconfig

open Librecompat.Lib

def NP_HANDLE_MAGIC : Nat := 0x4e505448

/-- `struct np_handle`. -/
structure NpHandle where
  magic : Nat
  useVisible : Bool
  ncHandle : Nat
  netpathBuf : Nat
  cursor : Option Nat
  allocHead : Nat
  allocTail : Nat
  deriving DecidableEq

def NpHandle.zero : NpHandle :=
  { magic := 0, useVisible := false, ncHandle := 0, netpathBuf := 0, cursor := none,
    allocHead := 0, allocTail := 0 }

/-- `struct netpath_alloc`. -/
structure NetpathAlloc where
  entry : Nat
  next : Nat
  deriving DecidableEq

inductive NpObj where
  | handle (h : NpHandle)
  | node (n : NetpathAlloc)
  deriving DecidableEq

/-- The database with the heap of this file. -/
structure Np where
  nc : Nc
  mem : Mem NpObj

/-! ## The tokenizer -/

def backslash : UInt8 := 92
def colon : UInt8 := 58

/-- The loop of `netpath_unescape`; at most `n` passes. -/
def unescapeLoop : Nat → List UInt8 → Nat → Nat → Option (List UInt8)
  | 0, _, _, _ => none
  | n + 1, bs, readp, writep => do
    let c ← bs[readp]?
    if c = 0 then writeAt bs writep [0]
    else
      let readp ← (if c = backslash then (bs[readp + 1]?).map fun d => if d ≠ 0 then readp + 1 else readp
        else some readp)
      let c ← bs[readp]?
      let bs ← writeAt bs writep [c]
      unescapeLoop n bs (readp + 1) (writep + 1)

def netpathUnescape (bs : List UInt8) (token : Nat) : Option (List UInt8) :=
  unescapeLoop (bs.length + 1) bs token token

/-- The loop of `netpath_next_token` over the memory from `p` on: how far it goes, and whether it
    stops at the delimiter. -/
def scanToken (delim : UInt8) : Bool → List UInt8 → Option (Nat × Bool)
  | _, [] => none
  | escaped, c :: s =>
    if c = 0 then some (0, false)
    else if !escaped && c == backslash then
      (scanToken delim true s).map fun (n, found) => (n + 1, found)
    else if !escaped && c == delim then some (0, true)
    else (scanToken delim false s).map fun (n, found) => (n + 1, found)

def netpathNextToken (bs : List UInt8) (s : Nat) (delim : UInt8) :
    Option (List UInt8 × Option Nat) := do
  let c ← bs[s]?
  if c = 0 then some (bs, none)
  else
    match ← scanToken delim false (bs.drop s) with
    | (n, true) =>
      let bs ← writeAt bs (s + n) [0]
      let bs ← netpathUnescape bs s
      some (bs, some (s + n + 1))
    | (_, false) =>
      let bs ← netpathUnescape bs s
      some (bs, none)

/-! ## The handle -/

variable (A : Allocator Obj) (B : Allocator NpObj)

def readNpHandle (m : Mem NpObj) (p : Nat) : Option NpHandle :=
  match m.heap.get p with
  | some (.handle h) => some h
  | _ => none

def readStr (m : Mem Obj) (p : Nat) : Option (List UInt8) :=
  match m.heap.get p with
  | some (.str bs) => some bs
  | _ => none

/-- `netpath_track_entry` on the handle `h` at `np`; the new handle, `none` for `-1`. -/
def netpathTrackEntry (m : Mem NpObj) (np : Nat) (h : NpHandle) (entry : Nat) :
    Option (Mem NpObj × Option NpHandle) := do
  let (m, node) := malloc B m (.node { entry := entry, next := 0 })
  if node = 0 then some (m, none)
  else
    let (m, h) ← (if h.allocTail ≠ 0 then
        match m.heap.get h.allocTail with
        | some (.node tail) =>
          (store m h.allocTail (.node { tail with next := node })).map fun m => (m, h)
        | _ => none
      else some (m, { h with allocHead := node }))
    let h := { h with allocTail := node }
    let m ← store m np (.handle h)
    some (m, some h)

def freenetconfigent (m : Mem Obj) (p : Nat) : Option (Mem Obj) :=
  if p = 0 then some m
  else
    match m.heap.get p with
    | some (.entries [some e]) => (freeNetconfigFields m e).bind fun m => free m p
    | _ => none

/-- The new handle, or `0`; `env` is the value of `NETPATH`, if it is set. -/
def setnetpath (db : Database) (env : Option CString) (s : Np) : Option (Np × Nat) := do
  let (mem, np) := malloc B s.mem (.handle NpHandle.zero)
  if np = 0 then some ({ nc := setError NC_NOMEM s.nc, mem := mem }, 0)
  else
    let h := { NpHandle.zero with magic := NP_HANDLE_MAGIC }
    let netpath := (env.map Subtype.val).getD []
    if netpath = [] then
      let (nc, ncHandle) ← setnetconfig A db s.nc
      if ncHandle = 0 then
        let mem ← free mem np
        some ({ nc := nc, mem := mem }, 0)
      else
        let mem ← store mem np (.handle { h with useVisible := true, ncHandle := ncHandle })
        some ({ nc := nc, mem := mem }, np)
    else
      let (ncMem, buf) := dupCstr A s.nc.mem netpath
      let nc := { s.nc with mem := ncMem }
      if buf = 0 then
        let mem ← free mem np
        some ({ nc := setError NC_NOMEM nc, mem := mem }, 0)
      else
        let mem ← store mem np (.handle { h with netpathBuf := buf, cursor := some 0 })
        some ({ nc := nc, mem := mem }, np)

/-! ## getnetpath -/

/-- The entry of the global table at an address. -/
def entryAt (s : Nc) (p : Nat) : Option Netconfig :=
  match s.mem.heap.get s.gEntries with
  | some (.entries es) => (es[(p - s.gEntries) / sizeofNetconfig]?).join
  | _ => none

/-- The loop over the visible entries; at most `n` passes. -/
def nextVisible (ncHandle : Nat) : Nat → Nc → Option (Nc × Nat)
  | 0, _ => none
  | n + 1, s => do
    let (s, entry) ← getnetconfig ncHandle s
    if entry = 0 then some (s, 0)
    else
      let e ← entryAt s entry
      if e.flag &&& NC_VISIBLE = 0 then nextVisible ncHandle n s else some (s, entry)

/-- The loop over the tokens of the handle `h` at `np`; at most `n` passes. -/
def nextEntry (db : Database) (np : Nat) : Nat → Np → NpHandle → Option (Np × Nat)
  | 0, _, _ => none
  | n + 1, s, h =>
    match h.cursor with
    | none => some (s, 0)
    | some token => do
      let bs ← readStr s.nc.mem h.netpathBuf
      let (bs, cursor) ← netpathNextToken bs token colon
      let h := { h with cursor := cursor }
      let ncMem ← store s.nc.mem h.netpathBuf (.str bs)
      let mem ← store s.mem np (.handle h)
      let s : Np := { nc := { s.nc with mem := ncMem }, mem := mem }
      if cstr (bs.drop token) = [] then nextEntry db np n s h
      else
        let (nc, entry) ← getnetconfigent A db
          (some ⟨cstr (bs.drop token), zero_not_mem_cstr _⟩) s.nc
        if entry = 0 then
          if nc.ncError = NC_NOTFOUND then nextEntry db np n { s with nc := setError 0 nc } h
          else some ({ s with nc := nc }, 0)
        else
          match ← netpathTrackEntry B s.mem np h entry with
          | (mem, some _) => some ({ nc := nc, mem := mem }, entry)
          | (mem, none) =>
            let ncMem ← freenetconfigent nc.mem entry
            some ({ nc := setError NC_NOMEM { nc with mem := ncMem }, mem := mem }, 0)

/-- The address of the next entry, or `0`. -/
def getnetpath (db : Database) (np : Nat) (s : Np) : Option (Np × Nat) := do
  if np = 0 then some ({ s with nc := setError NC_NOTINIT s.nc }, 0)
  else
    let h ← readNpHandle s.mem np
    if h.magic ≠ NP_HANDLE_MAGIC then some ({ s with nc := setError NC_NOTINIT s.nc }, 0)
    else if h.useVisible then
      let (nc, entry) ← nextVisible h.ncHandle (s.nc.gEntryCount + 1) s.nc
      some ({ s with nc := nc }, entry)
    else
      -- each pass but the last takes a character or the NUL off the rest of the string
      let n := ((readStr s.nc.mem h.netpathBuf).getD []).length
      nextEntry A B db np (n + 1) s h

end Librecompat.Netconfig
