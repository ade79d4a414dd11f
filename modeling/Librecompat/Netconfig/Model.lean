/-
  The netconfig database of src/rpc/getnetconfig.c over a heap.

  The heap holds C strings, arrays of string pointers, arrays of `struct netconfig` and
  iteration handles; `Nc` is the heap with the file's static variables. Buffers on the stack are
  passed by value. `none` means that the code goes wrong: it frees or reads something that is
  not there, or reads a cell that was never written. The public functions run under `g_lock`,
  so each is one step on `Nc`. The thread's own error number is that of the calling thread.
-/
import Librecompat.Darwin
import Librecompat.Lib.Bytes
import Librecompat.Lib.Heap

namespace Librecompat.Netconfig

open Librecompat.Lib

/-! ## netconfig.h, netconfig_compat_internal.h -/

def NC_TPI_CLTS : Nat := 1
def NC_TPI_COTS : Nat := 2
def NC_TPI_COTS_ORD : Nat := 3
def NC_TPI_RAW : Nat := 4

def NC_NOFLAG : Nat := 0x00
def NC_VISIBLE : Nat := 0x01
def NC_BROADCAST : Nat := 0x02

def NC_NONETCONFIG : Errno := ENOENT
def NC_NOMEM : Errno := ENOMEM
def NC_NOTINIT : Errno := EINVAL
def NC_BADFILE : Errno := EBADF
def NC_NOTFOUND : Errno := ENOPROTOOPT

def NC_HANDLE_MAGIC : Nat := 0x4e434647
def MAXNETCONFIGLINE : Nat := 1000

/-- `struct netconfig`, without the reserved words. -/
structure Netconfig where
  netid : Nat
  semantics : Nat
  flag : Nat
  protofmly : Nat
  proto : Nat
  device : Nat
  nlookups : Nat
  lookups : Nat
  deriving DecidableEq

/-- `sizeof (struct netconfig)`. -/
def sizeofNetconfig : Nat := 136

/-- `memset (…, 0, sizeof (struct netconfig))`. -/
def Netconfig.zero : Netconfig :=
  { netid := 0, semantics := 0, flag := 0, protofmly := 0, proto := 0, device := 0,
    nlookups := 0, lookups := 0 }

/-- `struct nc_handle`. -/
structure NcHandle where
  magic : Nat
  index : Nat
  deriving DecidableEq

/-- What a block holds; a cell that was never written is `none`. -/
inductive Obj where
  | str (bs : List UInt8)
  | slots (ps : List (Option Nat))
  | entries (es : List (Option Netconfig))
  | handle (h : NcHandle)
  deriving DecidableEq

variable (A : Allocator Obj)

def dupCstr (m : Mem Obj) (s : List UInt8) : Mem Obj × Nat := malloc A m (.str (s ++ [0]))

def sizeMulOk (a b : Nat) : Option Nat :=
  if a ≠ 0 ∧ b > (2 ^ 64 - 1) / a then none else some (a * b % 2 ^ 64)

/-! ## Freeing -/

/-- The first `n` cells, when all of them have been written. -/
def written {α : Type} : Nat → List (Option α) → Option (List α)
  | 0, _ => some []
  | n + 1, some a :: cells => (written n cells).map fun as => a :: as
  | _ + 1, _ => none

/-- The first `n` pointers of the array at `p`. -/
def readSlots (m : Mem Obj) (p n : Nat) : Option (List Nat) :=
  match m.heap.get p with
  | some (.slots ps) => written n ps
  | _ => none

/-- `if (lookups != NULL)` free its strings and the array. -/
def freeLookups (m : Mem Obj) (lookups count : Nat) : Option (Mem Obj) :=
  if lookups = 0 then some m
  else (readSlots m lookups count).bind fun ps => freeAll m (ps ++ [lookups])

/-- `free_netconfig_fields`; the caller goes on with a zeroed entry. -/
def freeNetconfigFields (m : Mem Obj) (e : Netconfig) : Option (Mem Obj) :=
  (freeAll m [e.netid, e.protofmly, e.proto, e.device]).bind fun m =>
    freeLookups m e.lookups e.nlookups

/-! ## Parsing a line -/

def parseSemantics (token : List UInt8) : Option Nat :=
  if token = chars "tpi_cots_ord" then some NC_TPI_COTS_ORD
  else if token = chars "tpi_cots" then some NC_TPI_COTS
  else if token = chars "tpi_clts" then some NC_TPI_CLTS
  else if token = chars "tpi_raw" then some NC_TPI_RAW
  else none

/-- The loop of `parse_flags` with the flags seen so far. -/
def parseFlagsFrom (flags : Nat) : List UInt8 → Option Nat
  | [] => some flags
  | c :: token =>
    if c = 45 then parseFlagsFrom flags token
    else if c = 118 then parseFlagsFrom (flags ||| NC_VISIBLE) token
    else if c = 98 then parseFlagsFrom (flags ||| NC_BROADCAST) token
    else none

def parseFlags (token : List UInt8) : Option Nat := parseFlagsFrom NC_NOFLAG token

/-- The variables of the loop of `parse_lookups`. -/
structure Lookups where
  mem : Mem Obj
  lookups : Nat
  count : Nat
  cap : Nat

def resizeSlots (n : Nat) : Obj → Obj
  | .slots ps => .slots (resizeCells n ps)
  | b => b

/-- Make room in `lookups`; `false` is `goto fail`. -/
def growLookups (w : Lookups) : Option (Lookups × Bool) :=
  let newCap := if w.cap = 0 then 4 else w.cap * 2 % 2 ^ 64
  match sizeMulOk newCap 8 with
  | none => some (w, false)
  | some bytes =>
    (realloc A w.mem w.lookups (.slots (resizeCells (bytes / 8) []))
      (resizeSlots (bytes / 8))).map fun (mem, p) =>
        if p = 0 then ({ w with mem := mem }, false)
        else ({ w with mem := mem, lookups := p, cap := newCap }, true)

/-- One segment; `false` is `goto fail`. -/
def addLookup (segment : List UInt8) (w : Lookups) : Option (Lookups × Bool) := do
  let (w, ok) ← (if w.count = w.cap then growLookups A w else some (w, true))
  if !ok then some (w, false)
  else
    let (mem, value) := dupCstr A w.mem segment
    if value = 0 then some ({ w with mem := mem }, false)
    else
      match mem.heap.get w.lookups with
      | some (.slots ps) =>
        let mem ← store mem w.lookups (.slots (ps.set w.count (some value)))
        some ({ w with mem := mem, count := w.count + 1 }, true)
      | _ => none

def addLookups : List (List UInt8) → Lookups → Option (Lookups × Bool)
  | [], w => some (w, true)
  | segment :: segments, w => do
    let (w, ok) ← addLookup A segment w
    if ok then addLookups segments w else some (w, false)

/-- The count and the array, `none` for `-1`. -/
def parseLookups (m : Mem Obj) (token : List UInt8) :
    Option (Mem Obj × Option (Nat × Nat)) := do
  if token = chars "-" then some (m, some (0, 0))
  else
    let (m, work) := dupCstr A m token
    if work = 0 then some (m, none)
    else
      let (w, ok) ← addLookups A (tokens (chars ",") token)
        { mem := m, lookups := 0, count := 0, cap := 0 }
      if ok then
        let m ← free w.mem work
        some (m, some (w.count, w.lookups))
      else
        let m ← freeLookups w.mem w.lookups w.count
        let m ← free m work
        some (m, none)

/-- What follows in `parse_netconfig_line` when the seven fields are there. -/
def parseFields (m : Mem Obj) (f0 f1 f2 f3 f4 f5 f6 : List UInt8) :
    Option (Mem Obj × Netconfig × Bool) := do
  let (m, netid) := dupCstr A m f0
  let (m, protofmly) := dupCstr A m f3
  let (m, proto) := dupCstr A m f4
  let (m, device) := dupCstr A m f5
  let out := { Netconfig.zero with netid := netid, protofmly := protofmly, proto := proto,
                                   device := device }
  if netid = 0 ∨ protofmly = 0 ∨ proto = 0 ∨ device = 0 then
    some (← freeNetconfigFields m out, Netconfig.zero, false)
  else
    match parseSemantics f1, parseFlags f2 with
    | some semantics, some flag =>
      match ← parseLookups A m f6 with
      | (m, some (nlookups, lookups)) =>
        some (m, { out with semantics := semantics, flag := flag, nlookups := nlookups,
                            lookups := lookups }, true)
      | (m, none) => some (← freeNetconfigFields m out, Netconfig.zero, false)
    | _, _ => some (← freeNetconfigFields m out, Netconfig.zero, false)

/-- The line up to the first CR or LF. -/
def cutLine (line : List UInt8) : List UInt8 :=
  (cstr line).takeWhile fun c => c ≠ 13 && c ≠ 10

/-- The entry, and whether the function returned `0`. -/
def parseNetconfigLine (m : Mem Obj) (line : List UInt8) :
    Option (Mem Obj × Netconfig × Bool) :=
  match tokens (chars " \t") (cutLine line) with
  | f0 :: f1 :: f2 :: f3 :: f4 :: f5 :: f6 :: _ => parseFields A m f0 f1 f2 f3 f4 f5 f6
  | _ => some (m, Netconfig.zero, false)

/-! ## The global table -/

/-- The heap, the static variables and the thread's error number. -/
structure Nc where
  mem : Mem Obj
  gEntries : Nat
  gEntryCount : Nat
  gEntryCap : Nat
  gRefcount : Nat
  gLoaded : Bool
  ncError : Errno

def resizeEntries (n : Nat) : Obj → Obj
  | .entries es => .entries (resizeCells n es)
  | b => b

/-- Make room in `g_entries`; `false` is `return -1`. -/
def growEntries (s : Nc) : Option (Nc × Bool) :=
  let newCap := if s.gEntryCap = 0 then 8 else s.gEntryCap * 2 % 2 ^ 64
  match sizeMulOk newCap sizeofNetconfig with
  | none => some (s, false)
  | some bytes =>
    (realloc A s.mem s.gEntries (.entries (resizeCells (bytes / sizeofNetconfig) []))
      (resizeEntries (bytes / sizeofNetconfig))).map fun (mem, p) =>
        if p = 0 then ({ s with mem := mem }, false)
        else ({ s with mem := mem, gEntries := p, gEntryCap := newCap }, true)

/-- `append_global_entry_locked`, and whether it returned `0`. -/
def appendGlobalEntry (s : Nc) (entry : Netconfig) : Option (Nc × Bool) := do
  let (s, ok) ← (if s.gEntryCount = s.gEntryCap then growEntries A s else some (s, true))
  if !ok then some (s, false)
  else
    match s.mem.heap.get s.gEntries with
    | some (.entries es) =>
      let mem ← store s.mem s.gEntries (.entries (es.set s.gEntryCount (some entry)))
      some ({ s with mem := mem, gEntryCount := s.gEntryCount + 1 }, true)
    | _ => none

/-- The entries of the table. -/
def readEntries (s : Nc) : Option (List Netconfig) :=
  if s.gEntryCount = 0 then some []
  else
    match s.mem.heap.get s.gEntries with
    | some (.entries es) => written s.gEntryCount es
    | _ => none

/-- `free_netconfig_fields` of one entry after the other. -/
def freeEntries (m : Mem Obj) : List Netconfig → Option (Mem Obj)
  | [] => some m
  | e :: es => (freeNetconfigFields m e).bind fun m => freeEntries m es

/-- `clear_global_entries_locked`; the cells are zeroed and go with the array. -/
def clearGlobalEntries (s : Nc) : Option Nc := do
  let es ← readEntries s
  let mem ← freeEntries s.mem es
  let mem ← free mem s.gEntries
  some { s with mem := mem, gEntries := 0, gEntryCount := 0, gEntryCap := 0, gLoaded := false }

def setError (err : Errno) (s : Nc) : Nc := { s with ncError := err }

/-! ## Loading -/

/-- What the database is when it is loaded: what can be read of the file, if it can be opened,
    whether reading stops at an error and not at the end of the file, and whether the network
    state has a dictionary under each of the four keys. -/
structure Database where
  file : Option (List UInt8)
  fileError : Bool
  stateV4 : Bool
  stateV6 : Bool
  setupV4 : Bool
  setupV6 : Bool

inductive LoadState where
  | ok
  | nofile
  | error
  deriving DecidableEq

/-- `fgets (line, n, fp)`: what it stores, and what is left of the file. -/
def fgets (n : Nat) (file : List UInt8) : List UInt8 × List UInt8 :=
  let k := min (n - 1) (file.idxOf 10 + 1)
  (file.take k, file.drop k)

/-- The lines that successive calls of `fgets` store, each with `feof` behind the call. -/
def fgetsLines (n : Nat) (error : Bool) : Nat → List UInt8 → List (List UInt8 × Bool)
  | 0, _ => []
  | _ + 1, [] => []
  | fuel + 1, file =>
    let (line, rest) := fgets n file
    (line, 10 ∉ line ∧ line.length < n - 1 ∧ !error) :: fgetsLines n error fuel rest

/-- Parse a line into the table; `false` with the error number set when that fails. -/
def loadLine (line : List UInt8) (s : Nc) : Option (Nc × Bool) := do
  let (mem, entry, ok) ← parseNetconfigLine A s.mem line
  let s := { s with mem := mem }
  if !ok then some (setError NC_BADFILE s, false)
  else
    let (s, ok) ← appendGlobalEntry A s entry
    if ok then some (s, true)
    else
      let mem ← freeNetconfigFields s.mem entry
      some (setError NC_NOMEM { s with mem := mem }, false)

/-- The loop of `load_file_entries_locked`, with `saw_data`. -/
def loadFileLines : List (List UInt8 × Bool) → Bool → Nc → Option (Nc × LoadState)
  | [], sawData, s =>
    if sawData then some (s, .ok) else some (setError NC_BADFILE s, .error)
  | (line, eof) :: lines, sawData, s => do
    if line.head? = some 35 then loadFileLines lines sawData s
    else if 10 ∉ cstr line ∧ !eof then some (setError NC_BADFILE s, .error)
    else
      let (s, ok) ← loadLine A line s
      if ok then loadFileLines lines true s else some (s, .error)

def loadFileEntries (db : Database) (s : Nc) : Option (Nc × LoadState) :=
  match db.file with
  | none => some (s, .nofile)
  | some file => loadFileLines A (fgetsLines MAXNETCONFIGLINE db.fileError file.length file) false s

/-- The six default lines. -/
def defaultLines (v4Visible v6Visible : Bool) : List (List UInt8) :=
  let v4Flag := if v4Visible then chars "v" else chars "-"
  let v6Flag := if v6Visible then chars "v" else chars "-"
  [chars "udp6 tpi_clts " ++ v6Flag ++ chars " inet6 udp - -",
   chars "tcp6 tpi_cots_ord " ++ v6Flag ++ chars " inet6 tcp - -",
   chars "udp tpi_clts " ++ v4Flag ++ chars " inet udp - -",
   chars "tcp tpi_cots_ord " ++ v4Flag ++ chars " inet tcp - -",
   chars "rawip tpi_raw - inet - - -",
   chars "local tpi_cots_ord - loopback - - -"]

/-- The loop over the default lines; `false` is `return -1`. -/
def loadLines : List (List UInt8) → Nc → Option (Nc × Bool)
  | [], s => some (s, true)
  | line :: lines, s => do
    if line.length + 1 > MAXNETCONFIGLINE then some (setError NC_BADFILE s, false)
    else
      let (s, ok) ← loadLine A line s
      if ok then loadLines lines s else some (s, false)

def loadDefaultEntriesWithVisibility (v4Visible v6Visible : Bool) (s : Nc) :
    Option (Nc × Bool) :=
  loadLines A (defaultLines v4Visible v6Visible) s

/-- Which addresses the network state has, if any: those of the running state, or else those of
    the setup. -/
def systemVisibility (db : Database) : Option (Bool × Bool) :=
  if db.stateV4 || db.stateV6 then some (db.stateV4, db.stateV6)
  else if db.setupV4 || db.setupV6 then some (db.setupV4, db.setupV6)
  else none

def loadSystemconfigurationEntries (db : Database) (s : Nc) : Option (Nc × LoadState) :=
  match systemVisibility db with
  | none => some (s, .nofile)
  | some (v4, v6) =>
    (loadDefaultEntriesWithVisibility A v4 v6 s).map fun (s, ok) =>
      (s, if ok then .ok else .error)

/-- `ensure_entries_loaded_locked`, and whether it returned `0`. -/
def ensureEntriesLoaded (db : Database) (s : Nc) : Option (Nc × Bool) := do
  if s.gLoaded then some (s, true)
  else
    match ← loadFileEntries A db s with
    | (s, .ok) => some ({ s with gLoaded := true }, true)
    | (s, .error) => some (← clearGlobalEntries s, false)
    | (s, .nofile) =>
      match ← loadSystemconfigurationEntries A db s with
      | (s, .ok) => some ({ s with gLoaded := true }, true)
      | (s, .error) => some (← clearGlobalEntries s, false)
      | (s, .nofile) =>
        let (s, ok) ← loadDefaultEntriesWithVisibility A true true s
        if ok then some ({ s with gLoaded := true }, true)
        else
          let s ← clearGlobalEntries s
          some (if s.ncError = 0 then setError NC_NONETCONFIG s else s, false)

/-! ## Copying an entry -/

/-- `_nc_dup_cstr` of a string in the heap. -/
def dupString (m : Mem Obj) (p : Nat) : Option (Mem Obj × Nat) :=
  if p = 0 then some (m, 0)
  else
    match m.heap.get p with
    | some (.str bs) => some (dupCstr A m (cstr bs))
    | _ => none

/-- The loop over the lookups: copies of `ps` into the cells of `lookups` from `i` on; `false`
    when one fails. -/
def dupLookups (lookups : Nat) : List Nat → Nat → Mem Obj → Option (Mem Obj × Bool)
  | [], _, m => some (m, true)
  | p :: ps, i, m => do
    let (m, value) ← dupString A m p
    match m.heap.get lookups with
    | some (.slots cells) =>
      let m ← store m lookups (.slots (cells.set i (some value)))
      if value = 0 then some (m, false) else dupLookups lookups ps (i + 1) m
    | _ => none

/-- `free_netconfig_fields (copy); free (copy); return NULL;` -/
def dropCopy (m : Mem Obj) (copy : Nat) (e : Netconfig) : Option (Mem Obj × Nat) := do
  let m ← freeNetconfigFields m e
  let m ← free m copy
  some (m, 0)

/-- What follows in `dup_entry` when the strings have been copied. -/
def dupEntryLookups (m : Mem Obj) (copy : Nat) (source e : Netconfig) :
    Option (Mem Obj × Nat) := do
  if source.nlookups = 0 then
    let m ← store m copy (.entries [some e])
    some (m, copy)
  else
    match sizeMulOk source.nlookups 8 with
    | none => dropCopy m copy e
    | some bytes =>
      let (m, lookups) := malloc A m (.slots (List.replicate (bytes / 8) (some 0)))
      if lookups = 0 then dropCopy m copy e
      else
        let ps ← readSlots m source.lookups source.nlookups
        let (m, ok) ← dupLookups A lookups ps 0 m
        if ok then
          let m ← store m copy (.entries [some { e with lookups := lookups }])
          some (m, copy)
        else dropCopy m copy { e with lookups := lookups }

/-- The address of the copy, `0` when there is no memory. -/
def dupEntry (m : Mem Obj) (source : Netconfig) : Option (Mem Obj × Nat) := do
  let (m, copy) := malloc A m (.entries [some Netconfig.zero])
  if copy = 0 then some (m, 0)
  else
    let (m, netid) ← dupString A m source.netid
    let (m, protofmly) ← dupString A m source.protofmly
    let (m, proto) ← dupString A m source.proto
    let (m, device) ← dupString A m source.device
    let e := { source with netid := netid, protofmly := protofmly, proto := proto,
                           device := device, lookups := 0 }
    if netid = 0 ∨ protofmly = 0 ∨ proto = 0 ∨ device = 0 then dropCopy m copy e
    else dupEntryLookups A m copy source e

/-! ## The public functions -/

/-- The new handle, or `0`. -/
def setnetconfig (db : Database) (s : Nc) : Option (Nc × Nat) := do
  let (mem, handle) := malloc A s.mem (.handle { magic := 0, index := 0 })
  let s := { s with mem := mem }
  if handle = 0 then some (setError NC_NOMEM s, 0)
  else
    let (s, ok) ← ensureEntriesLoaded A db s
    if ok then
      let mem ← store s.mem handle (.handle { magic := NC_HANDLE_MAGIC, index := 0 })
      some ({ s with mem := mem, gRefcount := (s.gRefcount + 1) % 2 ^ 32 }, handle)
    else
      let mem ← free s.mem handle
      some ({ s with mem := mem }, 0)

/-- The handle at an address. -/
def readHandle (m : Mem Obj) (p : Nat) : Option NcHandle :=
  match m.heap.get p with
  | some (.handle h) => some h
  | _ => none

/-- `&g_entries[i]`. -/
def entryAddr (s : Nc) (i : Nat) : Nat := s.gEntries + i * sizeofNetconfig

/-- The address of the next entry, or `0`. -/
def getnetconfig (handlep : Nat) (s : Nc) : Option (Nc × Nat) := do
  if handlep = 0 then some (setError NC_NOTINIT s, 0)
  else
    let handle ← readHandle s.mem handlep
    if handle.magic ≠ NC_HANDLE_MAGIC then some (setError NC_NOTINIT s, 0)
    else if !s.gLoaded then some (setError NC_NOTINIT s, 0)
    else if handle.index < s.gEntryCount then
      let mem ← store s.mem handlep (.handle { handle with index := handle.index + 1 })
      some ({ s with mem := mem }, entryAddr s handle.index)
    else some (s, 0)

/-- `0`, or `-1` for a pointer that is no handle. -/
def endnetconfig (handlep : Nat) (s : Nc) : Option (Nc × Int) := do
  if handlep = 0 then some (setError NC_NOTINIT s, -1)
  else
    let handle ← readHandle s.mem handlep
    if handle.magic ≠ NC_HANDLE_MAGIC then some (setError NC_NOTINIT s, -1)
    else
      let mem ← store s.mem handlep (.handle { handle with magic := 0 })
      let s := { s with mem := mem,
                        gRefcount := if s.gRefcount > 0 then s.gRefcount - 1 else s.gRefcount }
      let s ← (if s.gRefcount = 0 then clearGlobalEntries s else some s)
      let mem ← free s.mem handlep
      some ({ s with mem := mem }, 0)

/-- The first entry with the network id, if there is one. -/
def findEntry (m : Mem Obj) (netid : List UInt8) : List Netconfig → Option (Option Netconfig)
  | [] => some none
  | e :: es =>
    match m.heap.get e.netid with
    | some (.str bs) => if cstr bs = netid then some (some e) else findEntry m netid es
    | _ => none

/-- The address of a copy of the entry, or `0`; `netid` is `none` for a null pointer. -/
def getnetconfigent (db : Database) (netid : Option CString) (s : Nc) : Option (Nc × Nat) := do
  let s := setError NC_NOTFOUND s
  match netid with
  | none => some (s, 0)
  | some netid =>
    if netid.1 = [] then some (s, 0)
    else
      let (s, ok) ← ensureEntriesLoaded A db s
      if !ok then some (s, 0)
      else
        match ← findEntry s.mem netid.1 (← readEntries s) with
        | some e =>
          let (mem, copy) ← dupEntry A s.mem e
          let s := { s with mem := mem }
          if copy = 0 then some (setError NC_NOMEM s, 0) else some (s, copy)
        | none => some (if s.ncError = 0 then setError NC_NOTFOUND s else s, 0)

end Librecompat.Netconfig
