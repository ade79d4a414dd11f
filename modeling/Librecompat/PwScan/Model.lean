/-
  `__pw_scan` of src/gen/pw_scan.c, as built with __APPLE__ defined.

  The line is the text of a C string; `strsep` cuts it, and a field is the text it points to, a
  null pointer being `none`. The stages return the state in which the function goes on, or the
  one in which it returns 0. `pw_big_ids_warning` is 0 and nothing sets it, so what depends on it
  is left out. `shells` are the texts that `getusershell` gives.
-/
import Librecompat.Strtol

namespace Librecompat.PwScan

def UID_MAX : Nat := 2147483647
def GID_MAX : Nat := 2147483647

def PWSCAN_MASTER : Nat := 0x01
def PWSCAN_WARN : Nat := 0x02

def hasFlag (flags bit : Nat) : Bool := flags &&& bit ≠ 0

/-- `struct passwd`. -/
structure Passwd where
  pwName : Option (List UInt8)
  pwPasswd : Option (List UInt8)
  pwUid : Nat
  pwGid : Nat
  pwChange : Int
  pwClass : Option (List UInt8)
  pwGecos : Option (List UInt8)
  pwDir : Option (List UInt8)
  pwShell : Option (List UInt8)
  pwExpire : Int
  deriving DecidableEq

/-- The rest of the line, the entry, and the warnings so far. -/
structure Scan where
  bp : Option (List UInt8)
  pw : Passwd
  warnings : List (List UInt8)
  deriving DecidableEq

def colon : UInt8 := 58

/-- `strsep (&bp, ":")`. -/
def strsep : Option (List UInt8) → Option (List UInt8) × Option (List UInt8)
  | none => (none, none)
  | some s =>
    if colon ∈ s then (some (s.takeWhile (· ≠ colon)), some ((s.dropWhile (· ≠ colon)).tail))
    else (some s, none)

/-- `if (flags & _PWSCAN_WARN) warnx (…)`. -/
def Scan.warnx (flags : Nat) (text : List UInt8) (s : Scan) : Scan :=
  if hasFlag flags PWSCAN_WARN then { s with warnings := s.warnings ++ [text] } else s

/-- Warn and return 0. -/
def reject {α : Type} (flags : Nat) (text : List UInt8) (s : Scan) : Except Scan α :=
  .error (s.warnx flags text)

/-- `if (!(p = strsep (&bp, ":"))) goto fmt;`, `p` being stored with `set`. -/
def field (flags : Nat) (set : Option (List UInt8) → Passwd → Passwd) (s : Scan) :
    Except Scan (List UInt8 × Scan) :=
  match strsep s.bp with
  | (none, bp) => reject flags (chars "corrupted entry") { s with bp := bp, pw := set none s.pw }
  | (some p, bp) => .ok (p, { s with bp := bp, pw := set (some p) s.pw })

/-- The checks of an id field `p`; `what` is the name that the warnings give it, and `root` that
    it must be 0. -/
def scanId (flags max : Nat) (what : String) (root : Bool) (login p : List UInt8) (s : Scan) :
    Except Scan Nat :=
  if p = [] ∧ login.head? ≠ some 43 ∧ login.head? ≠ some 45 then
    reject flags (chars ("no " ++ what ++ " for user ") ++ login) s
  else
    let (temp, stop) := strtol p
    if (temp = LONG_MAX ∧ strtolErrno p = ERANGE) ∨ temp > max then
      reject flags (p ++ chars (" > max " ++ what ++ " value (") ++ decimal max ++ chars ")") s
    else
      let id := (temp % 0x100000000).toNat
      if stop < p.length then reject flags (p ++ chars (" " ++ what ++ " is incorrect")) s
      else if root && id ≠ 0 then reject flags (chars "root uid should be 0") s
      else .ok id

def scanUid (flags : Nat) (login p : List UInt8) (s : Scan) : Except Scan Nat :=
  scanId flags UID_MAX "uid" (login = chars "root") login p s

def scanGid (flags : Nat) (login p : List UInt8) (s : Scan) : Except Scan Nat :=
  scanId flags GID_MAX "gid" false login p s

/-- The fields that only `_PWSCAN_MASTER` asks for. -/
def scanMaster (flags : Nat) (s : Scan) : Except Scan Scan := do
  let (_, s) ← field flags (fun p pw => { pw with pwClass := p }) s
  let (p, s) ← field flags (fun _ pw => pw) s
  let s := { s with pw := { s.pw with pwChange := atol p } }
  let (p, s) ← field flags (fun _ pw => pw) s
  .ok { s with pw := { s.pw with pwExpire := atol p } }

/-- The loop over the shells for the shell of root. -/
def checkShell (shells : List (List UInt8)) (flags : Nat) (login p : List UInt8) (s : Scan) :
    Scan :=
  if login = chars "root" ∧ p ≠ [] ∧ p ∉ shells then
    s.warnx flags (chars "warning, unknown root shell")
  else s

/-- The last three fields, and nothing behind them. -/
def scanEnd (shells : List (List UInt8)) (flags : Nat) (login : List UInt8) (s : Scan) :
    Except Scan Scan := do
  let (_, s) ← field flags (fun p pw => { pw with pwGecos := p }) s
  let (_, s) ← field flags (fun p pw => { pw with pwDir := p }) s
  let (p, s) ← field flags (fun p pw => { pw with pwShell := p }) s
  let s := checkShell shells flags login p s
  match strsep s.bp with
  | (none, _) => .ok s
  | (some _, bp) => reject flags (chars "corrupted entry") { s with bp := bp }

/-- From the first field to the last. -/
def scanFields (shells : List (List UInt8)) (flags : Nat) (s : Scan) : Except Scan Scan := do
  let (login, s) ← field flags (fun p pw => { pw with pwName := p }) s
  let (_, s) ← field flags (fun p pw => { pw with pwPasswd := p }) s
  let (p, s) ← field flags (fun _ pw => pw) s
  let uid ← scanUid flags login p s
  let s := { s with pw := { s.pw with pwUid := uid } }
  let (p, s) ← field flags (fun _ pw => pw) s
  let gid ← scanGid flags login p s
  let s := { s with pw := { s.pw with pwGid := gid } }
  let s ← (if hasFlag flags PWSCAN_MASTER then scanMaster flags s else .ok s)
  scanEnd shells flags login s

/-- `__pw_scan`: the entry, the warnings, and whether it returns 1. -/
def pwScan (shells : List (List UInt8)) (bp : List UInt8) (pw : Passwd) (flags : Nat) :
    Passwd × List (List UInt8) × Bool :=
  match scanFields shells flags { bp := some bp, pw := pw, warnings := [] } with
  | .ok s => (s.pw, s.warnings, true)
  | .error s => (s.pw, s.warnings, false)

end Librecompat.PwScan
