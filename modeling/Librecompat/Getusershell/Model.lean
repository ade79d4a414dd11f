/-
  src/src/unistd/getusershell.c.

  `none` means that the code reads or writes outside of one of its two buffers. How large these
  are is a parameter: `Sizing.source` is what the source allocates. A `char *` is a string literal
  or an offset into `strings`. What `isspace_l` says of a byte depends on the locale and is a
  parameter too.
-/
import Librecompat.Darwin
import Librecompat.Lib.Loop
import Librecompat.Netconfig.Model

namespace Librecompat.Getusershell

open Librecompat.Lib

def MAXPATHLEN : Nat := 1024
def PATH_BSHELL : List UInt8 := chars "/var/jb/bin/sh"
def PATH_CSHELL : List UInt8 := chars "/var/jb/bin/csh"

/-- A `char *` that is not null. -/
inductive CharPtr where
  | literal (text : List UInt8)
  | strings (off : Nat)
  deriving DecidableEq

def okshells : List (Option CharPtr) :=
  [some (.literal PATH_BSHELL), some (.literal PATH_CSHELL), none]

/-- The array that `curshell` points into. -/
inductive Base where
  | okshells
  | shells
  deriving DecidableEq

/-- The static variables. -/
structure State where
  curshell : Option (Base × Nat)
  shells : Option (List (Option CharPtr))
  strings : Option (List UInt8)
  deriving DecidableEq

def State.initial : State := { curshell := none, shells := none, strings := none }

/-- What the system does in a call: `file` is the shells file, if it can be opened, and `junk` what
    `malloc` finds. -/
structure World where
  file : Option (List UInt8)
  fstatFails : Bool
  mallocFails : Bool
  callocFails : Bool
  junk : Nat → UInt8

/-- The sizes of `strings`, in bytes, and of `shells`, in pointers, for a file of `st_size`
    bytes. -/
structure Sizing where
  strings : Nat → Nat
  shells : Nat → Nat

/-- `(u_int) statb.st_size` and `(unsigned) statb.st_size / 3`. -/
def Sizing.source : Sizing :=
  { strings := fun stSize => stSize % 2 ^ 32, shells := fun stSize => stSize % 2 ^ 32 / 3 }

/-- `while (!stop (*cp)) cp++;` -/
def scan (stop : UInt8 → Bool) (strings : List UInt8) (cp : Nat) : Option Nat :=
  ((strings.drop cp).findIdx? stop).map (cp + ·)

/-- `*cp` is `'#'`, `'/'` or `'\0'`. -/
def startStop (c : UInt8) : Bool := c = 35 ∨ c = 47 ∨ c = 0

/-- `*cp` is white space, `'#'` or `'\0'`. -/
def endStop (isspace : UInt8 → Bool) (c : UInt8) : Bool := isspace c ∨ c = 35 ∨ c = 0

/-- The buffers, `sp` and `cp`, and what is left of the file. -/
structure Fill where
  strings : List UInt8
  shells : List (Option CharPtr)
  sp : Nat
  cp : Nat
  rest : List UInt8

variable (isspace : UInt8 → Bool)

/-- One pass of the loop of `initshells`, from the `fgets` on. -/
def readLine (w : Fill) : Option Fill := do
  let (line, rest) := Netconfig.fgets (MAXPATHLEN + 1) w.rest
  let strings ← writeAt w.strings w.cp (line ++ [0])
  let cp ← scan startStop strings w.cp
  let c ← strings[cp]?
  if c = 35 ∨ c = 0 then some { w with strings := strings, cp := cp, rest := rest }
  else
    let shells ← writeAt w.shells w.sp [some (.strings cp)]
    let cp ← scan (endStop isspace) strings cp
    let strings ← writeAt strings cp [0]
    some { strings := strings, shells := shells, sp := w.sp + 1, cp := cp + 1, rest := rest }

/-- The loop and `*sp = NULL`; `.inr none` when an access leaves a buffer. -/
def fillPass (w : Fill) : Fill ⊕ Option Fill :=
  if w.rest = [] then
    .inr ((writeAt w.shells w.sp [none]).map fun shells => { w with shells := shells })
  else
    match readLine isspace w with
    | none => .inr none
    | some w => .inl w

variable (sz : Sizing)

/-- The buffers that `initshells` allocates for the file. -/
def allocated (junk : Nat → UInt8) (file : List UInt8) : Fill :=
  { strings := (List.range (sz.strings file.length)).map junk
    shells := List.replicate (sz.shells file.length) none
    sp := 0
    cp := 0
    rest := file }

/-- `initshells` from the loop on; every pass reads something. -/
def fill (junk : Nat → UInt8) (file : List UInt8) : Option (Option Fill) :=
  loop (fillPass isspace) (file.length + 1) (allocated sz junk file)

/-- `initshells`: what it returns, and the static variables behind it. -/
def initshells (w : World) (s : State) : Option ((Base × Nat) × State) :=
  let s := { s with shells := none, strings := none }
  match w.file with
  | none => some ((.okshells, 0), s)
  | some file =>
    if w.fstatFails ∨ w.mallocFails ∨ w.callocFails then some ((.okshells, 0), s)
    else
      (fill isspace sz w.junk file).join.map fun b =>
        ((.shells, 0), { s with shells := some b.shells, strings := some b.strings })

/-- `*curshell` -/
def State.cell (s : State) : Base × Nat → Option (Option CharPtr)
  | (.okshells, i) => okshells[i]?
  | (.shells, i) => s.shells.bind fun shells => shells[i]?

/-- `curshell = initshells ();` -/
def setusershell (w : World) (s : State) : Option State :=
  (initshells isspace sz w s).map fun (p, s) => { s with curshell := some p }

def getusershell (w : World) (s : State) : Option (Option CharPtr × State) := do
  let s ← (if s.curshell = none then setusershell isspace sz w s else some s)
  let (base, i) ← s.curshell
  let ret ← s.cell (base, i)
  if ret = none then some (ret, s) else some (ret, { s with curshell := some (base, i + 1) })

def endusershell (s : State) : State :=
  { s with curshell := none, shells := none, strings := none }

/-- Successive calls of `getusershell`: what they return, and the state behind the last one. -/
def getusershells : List World → State → Option (List (Option CharPtr) × State)
  | [], s => some ([], s)
  | w :: ws, s => do
    let (ret, s) ← getusershell isspace sz w s
    let (rets, s) ← getusershells ws s
    some (ret :: rets, s)

/-- The text at a `char *`. -/
def State.text (s : State) : CharPtr → Option (List UInt8)
  | .literal text => some text
  | .strings off => s.strings.bind fun strings =>
    (strlen (strings.drop off)).map fun n => (strings.drop off).take n

end Librecompat.Getusershell
