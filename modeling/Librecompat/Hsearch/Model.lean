/-
  `hcreate_r` and `hsearch_r`: a hash table with open addressing and double hashing.

  `unsigned int` is `UInt32` and `size_t` is `UInt64`, with their wrap. A key is an address; `str`
  is the memory the keys live in, the string at each address at the time of a call. The table is a
  list of `size + 1` slots, `none` for a null pointer, and index 0 is never used. `none` as the
  result of a call is an access outside the table.
-/
import Librecompat.Darwin
import Librecompat.Lib.Loop

namespace Librecompat.Hsearch

open Librecompat.Lib

structure Entry where
  key : Nat
  data : Nat
  deriving DecidableEq, Repr

/-- `struct _ENTRY`; `used` is 0 or the hash value of the key. -/
structure Slot where
  used : UInt32
  entry : Entry
  deriving DecidableEq, Repr

structure HsearchData where
  table : Option (List Slot)
  size : UInt32
  filled : UInt32
  deriving DecidableEq, Repr

inductive Action
  | find
  | enter
  deriving DecidableEq, Repr

/-! ## hcreate_r -/

/-- The test for odd numbers. -/
def isprime (number : UInt32) : Option Bool :=
  loop (fun div : UInt32 =>
    if div ≤ number / div then
      if number % div = 0 then .inr false else .inl (div + 2)
    else .inr true) (2 ^ 16) 3

def uintMax : UInt64 := 4294967295

/-- One pass of `for (nel |= 1; ; nel += 2)`; the loop ends with `some none` for lack of a prime. -/
def nextPrimeBody (nel : UInt64) : UInt64 ⊕ Option (Option UInt64) :=
  if uintMax - 2 < nel then .inr (some none)
  else
    match isprime nel.toUInt32 with
    | none => .inr none
    | some true => .inr (some (some nel))
    | some false => .inl (nel + 2)

/-- `calloc` of `n` slots, where `callocOk` says whether there is memory. -/
def callocSlots (callocOk : Bool) (n : Nat) : Option (List Slot) :=
  if callocOk then some (List.replicate n ⟨0, ⟨0, 0⟩⟩) else none

/-- The table descriptor after the call, the return value and the error number set, if any. -/
def hcreateR (nel : UInt64) (callocOk : Bool) (htab : Option HsearchData) :
    Option (Option HsearchData × Int × Option Errno) :=
  match htab with
  | none => some (none, 0, some EINVAL)
  | some htab =>
    if htab.table.isSome then some (some htab, 0, none)
    else do
      let nel := if nel < 3 then 3 else nel
      match ← (loop nextPrimeBody (2 ^ 32) (nel ||| 1)).join with
      | none => some (some htab, 0, some ENOMEM)
      | some nel =>
        let size := nel.toUInt32
        let table := callocSlots callocOk (size + 1).toNat
        let htab := { table := table, size := size, filled := 0 }
        if table.isNone then some (some htab, 0, none) else some (some htab, 1, none)

/-! ## hsearch_r -/

/-- The hash value of a key, never 0. -/
def hashValue (key : CString) : UInt32 :=
  let len := UInt32.ofNat key.1.length
  let hval := (key.1.take len.toNat).foldr
    (fun c (hval : UInt32) => (hval <<< 4) + UInt32.ofInt (charVal c)) len
  if hval = 0 then hval + 1 else hval

/-- The step of the second hash function. -/
def nextIdx (size hval2 idx : UInt32) : UInt32 :=
  if idx ≤ hval2 then size + idx - hval2 else idx - hval2

/-- How the search ends: at the key or at the bucket where it would have to be. -/
inductive Probe
  | found (idx : UInt32)
  | bucket (idx : UInt32)

/-- One pass of the `do` loop; the key compares equal exactly with the same string. -/
def probeBody (str : Nat → CString) (table : List Slot) (size hval hval2 firstIdx : UInt32)
    (key : CString) (idx : UInt32) : UInt32 ⊕ Option Probe :=
  let idx := nextIdx size hval2 idx
  if idx = firstIdx then .inr (some (.bucket idx))
  else
    match table[idx.toNat]? with
    | none => .inr none
    | some slot =>
      if slot.used = hval ∧ key = str slot.entry.key then .inr (some (.found idx))
      else if slot.used ≠ 0 then .inl idx
      else .inr (some (.bucket idx))

/-- The descriptor after the call, the return value, the error number set and `*retval`: the
    index of the entry pointed to. -/
structure Result where
  htab : HsearchData
  ret : Int
  errno : Option Errno
  retval : Option Nat
  deriving DecidableEq, Repr

/-- `**retval` -/
def Result.entry (r : Result) : Option Entry := do
  let idx ← r.retval
  let table ← r.htab.table
  let slot ← table[idx]?
  some slot.entry

def hsearchR (str : Nat → CString) (item : Entry) (action : Action) (htab : HsearchData) :
    Option Result := do
  let table ← htab.table
  let key := str item.key
  let hval := hashValue key
  let idx := hval % htab.size + 1
  let slot ← table[idx.toNat]?
  let probe ←
    if slot.used ≠ 0 then
      if slot.used = hval ∧ key = str slot.entry.key then some (.found idx)
      else
        let hval2 := 1 + hval % (htab.size - 2)
        (loop (probeBody str table htab.size hval hval2 idx key) htab.size.toNat idx).join
    else some (.bucket idx)
  match probe, action with
  | .found idx, _ => some { htab := htab, ret := 1, errno := none, retval := some idx.toNat }
  | .bucket idx, .enter =>
    if htab.filled = htab.size then
      some { htab := htab, ret := 0, errno := some ENOMEM, retval := none }
    else
      let table := table.set idx.toNat { used := hval, entry := item }
      some { htab := { htab with table := some table, filled := htab.filled + 1 },
             ret := 1, errno := none, retval := some idx.toNat }
  | .bucket _, .find => some { htab := htab, ret := 0, errno := some ESRCH, retval := none }

end Librecompat.Hsearch
