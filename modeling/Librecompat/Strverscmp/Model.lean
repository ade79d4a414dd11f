/-
  `strverscmp.c` and `versionsort.c`.

  A pointer is an address; the memory says for each address what it holds from there on to the end
  of the block. `none` is a read outside of a block. The locale is "C", so digits are '0' to '9'.
-/
import Librecompat.Darwin

namespace Librecompat.Strverscmp

/-- What is at an address and behind it. -/
abbrev Mem := Nat → List UInt8

def isdigit (c : UInt8) : Bool := 48 ≤ c ∧ c ≤ 57

/-- `(c == '0') + (isdigit (c) != 0)` -/
def symbol (c : UInt8) : Nat := (if c = 48 then 1 else 0) + (if isdigit c then 1 else 0)

def S_N : Nat := 0x0
def S_I : Nat := 0x3
def S_F : Nat := 0x6
def S_Z : Nat := 0x9

def CMP : Int := 2
def LEN : Int := 3

def nextState : List Nat :=
  [S_N, S_I, S_Z,
   S_N, S_I, S_I,
   S_N, S_F, S_F,
   S_N, S_F, S_Z]

def resultType : List Int :=
  [CMP, CMP, CMP, CMP, LEN, CMP, CMP, CMP, CMP,
   CMP, -1, -1, 1, LEN, LEN, 1, LEN, LEN,
   CMP, CMP, CMP, CMP, CMP, CMP, CMP, CMP, CMP,
   CMP, 1, 1, -1, CMP, CMP, -1, CMP, CMP]

/-- The loop of the case `LEN` and what follows it. -/
def longer (diff : Int) : List UInt8 → List UInt8 → Option Int
  | [], _ | _, [] => none
  | c1 :: p1, c2 :: p2 =>
    if isdigit c1 then if isdigit c2 then longer diff p1 p2 else some 1
    else some (if isdigit c2 then -1 else diff)

/-- What follows the main loop. -/
def verdict (state : Nat) (c2 : UInt8) (diff : Int) (p1 p2 : List UInt8) : Option Int := do
  let result ← resultType[state * 3 + symbol c2]?
  if result = CMP then some diff
  else if result = LEN then longer diff p1 p2
  else some result

/-- The main loop; `p1` and `p2` are behind `c1` and `c2`. -/
def scan (state : Nat) (c1 c2 : UInt8) : List UInt8 → List UInt8 → Option Int
  | p1, p2 =>
    let diff : Int := c1.toNat - c2.toNat
    if diff ≠ 0 then verdict state c2 diff p1 p2
    else if c1 = 0 then some diff
    else
      match p1, p2 with
      | d1 :: p1, d2 :: p2 =>
        nextState[state]?.bind fun state => scan (state + symbol d1) d1 d2 p1 p2
      | _, _ => none

def strverscmp (m : Mem) (s1 s2 : Nat) : Option Int :=
  if s1 = s2 then some 0
  else
    match m s1, m s2 with
    | c1 :: p1, c2 :: p2 => scan (S_N + symbol c1) c1 c2 p1 p2
    | _, _ => none

/-- The field of `struct dirent` that is compared. -/
structure Dirent where
  dName : Nat

def versionsort (m : Mem) (a b : Dirent) : Option Int := strverscmp m a.dName b.dName

end Librecompat.Strverscmp
