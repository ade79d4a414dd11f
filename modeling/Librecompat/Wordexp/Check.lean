/-
  `we_check` of src/wordexp/wordexp.c.

  The string is the memory from `words` on: its characters, the NUL and whatever lies behind it.
  `Scan` is the state at the head of the main loop, `checkBody` one pass. A pass reads one
  character, except that an unquoted backquote, `${` or `$(` is read together with everything up
  to its closing character by an inner loop (`skipBackquote`, `skipNested`), and that a `$`
  before the NUL is read together with the NUL. `none` means that the scan leaves the memory.
-/
import Librecompat.Darwin
import Librecompat.Lib.Loop

namespace Librecompat.Wordexp

open Librecompat.Lib

/-! ## wordexp.h -/

def WRDE_APPEND : Nat := 0x01
def WRDE_DOOFFS : Nat := 0x02
def WRDE_NOCMD : Nat := 0x04
def WRDE_REUSE : Nat := 0x08
def WRDE_UNDEF : Nat := 0x20

def WRDE_BADCHAR : Nat := 1
def WRDE_BADVAL : Nat := 2
def WRDE_CMDSUB : Nat := 3
def WRDE_NOSPACE : Nat := 4
def WRDE_SYNTAX : Nat := 6

/-- `flags & bit`. -/
def hasFlag (flags bit : Nat) : Bool := flags &&& bit != 0

/-! ## Characters -/

def newline : UInt8 := 10
def dquoteChar : UInt8 := 34
def dollar : UInt8 := 36
def ampersand : UInt8 := 38
def squoteChar : UInt8 := 39
def openParen : UInt8 := 40
def closeParen : UInt8 := 41
def semicolon : UInt8 := 59
def less : UInt8 := 60
def greater : UInt8 := 62
def backslash : UInt8 := 92
def backquote : UInt8 := 96
def openBrace : UInt8 := 123
def bar : UInt8 := 124
def closeBrace : UInt8 := 125

/-- The characters that must be quoted. -/
def badChars : List UInt8 :=
  [bar, ampersand, semicolon, less, greater, openBrace, closeBrace, openParen, closeParen,
    newline]

/-! ## The inner loops -/

/-- How an inner loop ends: outside the memory, at the NUL, or behind the closing character. -/
inductive Skip where
  | overrun
  | unclosed
  | closed (words : List UInt8)

/-- The loop from behind a backquote to the closing one. -/
def skipBackquote : List UInt8 → Skip
  | [] => .overrun
  | c :: words =>
    if c = 0 then .unclosed
    else if c = backquote then .closed words
    else if c = backslash then
      match words with
      | [] => .overrun
      | d :: words => if d = 0 then .unclosed else skipBackquote words
    else skipBackquote words

/-- The loop from behind `opn` to the matching `cls`, with `level` open ones. -/
def skipNested (opn cls : UInt8) (level : Nat) : List UInt8 → Skip
  | [] => .overrun
  | c :: words =>
    if c = 0 then .unclosed
    else if c = backslash then
      match words with
      | [] => .overrun
      | d :: words => if d = 0 then .unclosed else skipNested opn cls level words
    else if c = opn then skipNested opn cls (level + 1) words
    else if c = cls then
      if level - 1 = 0 then .closed words else skipNested opn cls (level - 1) words
    else skipNested opn cls level words

/-! ## The main loop -/

/-- `words`, `quote`, `squote` and `dquote` at the head of the loop. -/
structure Scan where
  words : List UInt8
  quote : Bool
  squote : Bool
  dquote : Bool

/-- The loop goes on behind `words`, with `quote` reset. -/
def Scan.next (s : Scan) (words : List UInt8) : Scan ⊕ Option Nat :=
  .inl { s with words := words, quote := false }

/-- What an inner loop's end means for the scan. -/
def Scan.skip (s : Scan) : Skip → Scan ⊕ Option Nat
  | .overrun => .inr none
  | .unclosed => .inr (some WRDE_SYNTAX)
  | .closed words => s.next words

/-- `case '$'`, with `words` behind the `$`. -/
def checkDollar (flags : Nat) (s : Scan) (words : List UInt8) : Scan ⊕ Option Nat :=
  match words with
  | [] => .inr none
  | c :: rest =>
    if c = 0 then s.next rest
    else if !(s.quote || s.squote) && c == openParen then
      if hasFlag flags WRDE_NOCMD then
        match rest with
        | [] => .inr none
        | d :: _ =>
          if d ≠ openParen then .inr (some WRDE_CMDSUB)
          else s.skip (skipNested openParen closeParen 1 rest)
      else s.skip (skipNested openParen closeParen 1 rest)
    else if !(s.quote || s.squote) && c == openBrace then
      s.skip (skipNested openBrace closeBrace 1 rest)
    else s.next words

/-- One pass of the main loop. -/
def checkBody (flags : Nat) (s : Scan) : Scan ⊕ Option Nat :=
  match s.words with
  | [] => .inr none
  | c :: words =>
    if c = 0 then .inr (some (if s.quote || s.squote || s.dquote then WRDE_SYNTAX else 0))
    else if c = backslash then
      .inl { s with words := words, quote := if s.squote then s.quote else !s.quote }
    else if c = squoteChar then
      Scan.next { s with squote := if s.quote || s.dquote then s.squote else !s.squote } words
    else if c = dquoteChar then
      Scan.next { s with dquote := if s.quote || s.squote then s.dquote else !s.dquote } words
    else if c = backquote then
      if s.quote || s.squote then s.next words
      else if hasFlag flags WRDE_NOCMD then .inr (some WRDE_CMDSUB)
      else s.skip (skipBackquote words)
    else if c ∈ badChars then
      if s.quote || s.squote || s.dquote then s.next words else .inr (some WRDE_BADCHAR)
    else if c = dollar then checkDollar flags s words
    else s.next words

/-- The scan before the first pass. -/
def Scan.start (mem : List UInt8) : Scan :=
  { words := mem, quote := false, squote := false, dquote := false }

def weCheck (mem : List UInt8) (flags : Nat) : Option Nat :=
  (loop (checkBody flags) (mem.length + 1) (Scan.start mem)).join

/-! ## The results -/

/-- An inner loop ends the scan outside the memory or at the NUL. -/
theorem skip_exit {s : Scan} {k : Skip} {r : Option Nat} (h : s.skip k = .inr r) :
    (r = none ∧ k = .overrun) ∨ r = some WRDE_SYNTAX := by
  cases k with
  | overrun => exact .inl ⟨(Sum.inr.inj h).symm, rfl⟩
  | unclosed => exact .inr (Sum.inr.inj h).symm
  | closed words => cases h

theorem checkDollar_exit {flags : Nat} {s : Scan} {words : List UInt8} {r : Option Nat}
    (h : checkDollar flags s words = .inr r) :
    r = none ∨ r = some WRDE_SYNTAX ∨ r = some WRDE_CMDSUB := by
  have hskip := @skip_exit s
  unfold checkDollar Scan.next at h
  grind

theorem checkBody_exit {flags : Nat} {s : Scan} {r : Option Nat}
    (h : checkBody flags s = .inr r) :
    r = none ∨ r = some 0 ∨ r = some WRDE_SYNTAX ∨ r = some WRDE_CMDSUB ∨
      r = some WRDE_BADCHAR := by
  have hskip := @skip_exit s
  have hdollar := @checkDollar_exit flags s
  unfold checkBody Scan.next at h
  grind

end Librecompat.Wordexp
