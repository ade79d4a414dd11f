/-
  `group_nodes_into_DFAstates` in src/regex/regexec.c.

  A token has of the union `opr` the character and the bit set. The destinations are the entries of
  `dests_node` and `dests_ch` below `ndests`; both arrays have `SBC_MAX` elements, and a write past
  their end ends the call (`Stop.overflow`). `ok k` says whether the allocations of the `k`-th call
  on a set succeed; node sets are those of `NodeSet.Model`. `none` means that an index leaves the
  array of nodes or that a call on a set goes wrong.
-/
import Librecompat.Regex.Bits
import Librecompat.NodeSet.Model

namespace Librecompat.Grouping

open Librecompat.Lib Librecompat.NodeSet
open Librecompat.Regex

/-! ## regex_internal.h -/

def NEXT_WORD_CONSTRAINT : Nat := 0x0004
def NEXT_NOTWORD_CONSTRAINT : Nat := 0x0008
def NEXT_NEWLINE_CONSTRAINT : Nat := 0x0020
def NEXT_ENDBUF_CONSTRAINT : Nat := 0x0080

def NEWLINE_CHAR : Nat := 0x0a

def ASCII_CHARS : Nat := 0x80

/-- `re_token_t`. -/
structure Token where
  type : TokenType
  c : Fin SBC_MAX := 0
  sbcset : Bitset := 0#256
  constraint : Nat := 0
  wordChar : Bool := false

/-- `re_dfa_t`; `dotNewline` and `dotNotNull` are the bits of `syntax` of these names. -/
structure Dfa where
  nodes : List Token
  dotNewline : Bool
  dotNotNull : Bool
  mbCurMax : Nat
  wordChar : Bitset
  sbChar : Bitset

variable (dfa : Dfa)

/-! ## The set of a node -/

/-- The newline and the null character are taken out of a period as the bits of `syntax` say. -/
def clearDot (accepts : Bitset) : Bitset :=
  let accepts := if !dfa.dotNewline then bitsetClear accepts NEWLINE_CHAR else accepts
  if dfa.dotNotNull then bitsetClear accepts 0 else accepts

/-- Enumerates all single byte characters that the node can accept; `none` goes on to the next
    node. -/
def enumerate (node : Token) (accepts : Bitset) : Option Bitset :=
  match node.type with
  | .character => some (bitsetSet accepts node.c)
  | .simpleBracket => some (bitsetMerge accepts node.sbcset)
  | .opPeriod =>
    some (clearDot dfa (if dfa.mbCurMax > 1 then bitsetMerge accepts dfa.sbChar else bitsetSetAll))
  | .opUtf8Period =>
    -- `memset` on the words of the ASCII characters
    some (clearDot dfa (bitsetMerge accepts (BitVec.ofNat SBC_MAX (2 ^ ASCII_CHARS - 1))))
  | _ => none

/-- `NEXT_NEWLINE_CONSTRAINT`; the second component says whether the node is still looked at. -/
def siftNewline (node : Token) (accepts : Bitset) : Bitset × Bool :=
  if node.constraint &&& NEXT_NEWLINE_CONSTRAINT ≠ 0 then
    if bitsetContain accepts NEWLINE_CHAR then (bitsetSet bitsetEmpty NEWLINE_CHAR, true)
    else (bitsetEmpty, false)
  else (accepts, true)

/-- `NEXT_ENDBUF_CONSTRAINT`. -/
def siftEndbuf (node : Token) (accepts : Bitset) : Bitset × Bool :=
  if node.constraint &&& NEXT_ENDBUF_CONSTRAINT ≠ 0 then (bitsetEmpty, false) else (accepts, true)

/-- `NEXT_WORD_CONSTRAINT`. -/
def siftWord (node : Token) (accepts : Bitset) : Bitset × Bool :=
  if node.constraint &&& NEXT_WORD_CONSTRAINT ≠ 0 then
    if node.type = .character ∧ !node.wordChar then (bitsetEmpty, false)
    else
      let accepts := accepts &&&
        (if dfa.mbCurMax > 1 then dfa.wordChar ||| ~~~dfa.sbChar else dfa.wordChar)
      (accepts, accepts ≠ 0#256)
  else (accepts, true)

/-- `NEXT_NOTWORD_CONSTRAINT`. -/
def siftNotword (node : Token) (accepts : Bitset) : Bitset × Bool :=
  if node.constraint &&& NEXT_NOTWORD_CONSTRAINT ≠ 0 then
    if node.type = .character ∧ node.wordChar then (bitsetEmpty, false)
    else
      let accepts := accepts &&&
        ~~~(if dfa.mbCurMax > 1 then dfa.wordChar &&& dfa.sbChar else dfa.wordChar)
      (accepts, accepts ≠ 0#256)
  else (accepts, true)

/-- One check after the other, as long as the node is still looked at. -/
def andSift (r : Bitset × Bool) (f : Bitset → Bitset × Bool) : Bitset × Bool :=
  if r.2 then f r.1 else r

/-- Sifts the characters that do not match the context. -/
def sift (node : Token) (accepts : Bitset) : Bitset × Bool :=
  if node.constraint ≠ 0 then
    andSift (andSift (andSift (siftNewline node accepts) (siftEndbuf node)) (siftWord dfa node))
      (siftNotword dfa node)
  else (accepts, true)

/-! ## The destinations -/

/-- An entry of `dests_ch` and of `dests_node`. -/
structure Dest where
  ch : Bitset
  node : ReNodeSet

/-- The call ends with a write past the end of the arrays, or returns `-1`. -/
inductive Stop where
  | overflow
  | failed
  deriving DecidableEq

/-- The variables of the function; `calls` counts the calls on sets. -/
structure Groups where
  dests : List Dest
  accepts : Bitset
  calls : Nat

variable (ok : Nat → Bool)

/-- A new entry behind the others, with the node set that a call on sets returns. -/
def addDest (s : Groups) (ch : Bitset) (node : Option (ReNodeSet × RegErrcode)) :
    Option (Except Stop Groups) :=
  if s.dests.length < SBC_MAX then do
    let (node, err) ← node
    if err ≠ REG_NOERROR then some (.error .failed)
    else some (.ok { s with dests := s.dests ++ [⟨ch, node⟩], calls := s.calls + 1 })
  else some (.error .overflow)

/-- Puts the position in the group `j`. -/
def insertPosition (s : Groups) (j : Nat) (elem : Int) : Option (Except Stop Groups) := do
  let dest ← s.dests[j]?
  let (node, done) ← reNodeSetInsert (ok s.calls) dest.node elem
  if !done then some (.error .failed)
  else some (.ok { s with dests := s.dests.set j { dest with node := node }, calls := s.calls + 1 })

/-- The group `j` keeps what it has in common with `accepts`, and a new group gets the remains
    unless there are none. -/
def splitDest (s : Groups) (j : Nat) (dest : Dest) : Option (Except Stop Groups) :=
  let intersec := s.accepts &&& dest.ch
  let remains := ~~~s.accepts &&& dest.ch
  if remains ≠ 0#256 then
    addDest { s with dests := s.dests.set j { dest with ch := intersec } } remains
      (reNodeSetInitCopy (ok s.calls) dest.node)
  else some (.ok s)

/-- The position gets what the group `j` has in common with `accepts`. -/
def takePart (s : Groups) (j : Nat) (dest : Dest) (elem : Int) :
    Option (Except Stop Groups) := do
  match ← splitDest ok s j dest with
  | .error stop => some (.error stop)
  | .ok t => insertPosition ok { t with accepts := s.accepts &&& ~~~dest.ch } j elem

/-- One pass of the loop that divides `accepts`; it ends with the index that it has come to. -/
def dividePass (node : Token) (elem : Int) (s : Groups × Nat) :
    Option ((Groups × Nat) ⊕ Except Stop (Groups × Nat)) :=
  if s.1.dests.length ≤ s.2 then some (.inr (.ok s))
  else do
    let dest ← s.1.dests[s.2]?
    -- skip if this group does not accept the character, or nothing of `accepts`
    if node.type = .character ∧ !bitsetContain dest.ch node.c then some (.inl (s.1, s.2 + 1))
    else if s.1.accepts &&& dest.ch = 0#256 then some (.inl (s.1, s.2 + 1))
    else
      match ← takePart ok s.1 s.2 dest elem with
      | .error stop => some (.inr (.error stop))
      | .ok t =>
        if t.accepts = 0#256 then some (.inr (.ok (t, s.2))) else some (.inl (t, s.2 + 1))

/-- Divides `accepts` into the groups; if some characters remain, they get a new group. -/
def divide (node : Token) (elem : Int) (s : Groups) : Option (Except Stop Groups) := do
  match ← tryLoop (dividePass ok node elem) (SBC_MAX + 1) (s, 0) with
  | .error stop => some (.error stop)
  | .ok (s, j) =>
    if j = s.dests.length then do
      match ← addDest s s.accepts (reNodeSetInit1 (ok s.calls) elem) with
      | .error stop => some (.error stop)
      | .ok s => some (.ok { s with accepts := bitsetEmpty })
    else some (.ok s)

/-- One pass of the loop over the nodes. -/
def groupNode (elem : Int) (s : Groups) : Option (Except Stop Groups) := do
  let node ← getAt dfa.nodes elem
  match enumerate dfa node s.accepts with
  | none => some (.ok s)
  | some accepts =>
    let (accepts, go) := sift dfa node accepts
    if go then divide ok node elem { s with accepts := accepts }
    else some (.ok { s with accepts := accepts })

/-- The loop over the nodes, the cells `is` of `cur_nodes->elems`. -/
def groupNodes (curNodes : ReNodeSet) : List Nat → Groups → Option (Except Stop Groups)
  | [], s => some (.ok s)
  | i :: is, s => do
    let elem ← readCell curNodes.elems i
    match ← groupNode dfa ok elem s with
    | .error stop => some (.error stop)
    | .ok s => groupNodes curNodes is s

/-- `group_nodes_into_DFAstates`, with `state->nodes`. -/
def groupNodesIntoDFAstates (curNodes : ReNodeSet) : Option (Except Stop (List Dest)) := do
  let r ← groupNodes dfa ok curNodes (List.range curNodes.nelem.toNat) ⟨[], bitsetEmpty, 0⟩
  some (r.map (·.dests))

end Librecompat.Grouping
