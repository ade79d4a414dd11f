/-
  The states that matching makes from a compiled pattern in a single-byte locale.

  A state is made of a set of nodes, its `entrance_nodes`, for a context: `contextNodes` are its
  nodes. The sets come from `re_compile_internal`, from `build_trtable`, and in src/regex/regexec.c
  from `transit_state_bkref` and `merge_state_with_log` if the pattern has back references.
  `okGroup k`, `okFollow k` say whether the `k`-th allocation for the groups and behind them
  succeeds. `Reached` has a set for every state that a table is built for.
-/
import Librecompat.Regcomp.Compile

namespace Librecompat.Regcomp

open Librecompat.Lib Librecompat.NodeSet
open Librecompat.Grouping (Dest Stop groupNodesIntoDFAstates)
open Librecompat.Regex (RegErrcode REG_NOERROR)

/-! ## build_trtable -/

/-- `follows`, the number of allocations, and `err`; with an error the function has returned. -/
structure Follows where
  set : ReNodeSet
  calls : Nat
  err : RegErrcode

variable (loc : Locale) (syn : RegSyntax) (okGroup okFollow : Nat → Bool)

/-- The pass for the node in the cell `j` of a group. -/
def followPass (nfa : Nfa) (node : ReNodeSet) (s : Follows) (j : Nat) : Option Follows :=
  if s.err ≠ REG_NOERROR then some s
  else do
    let nextNode ← getAt nfa.nexts (← readCell node.elems j)
    if nextNode = -1 then some s
    else do
      let closure ← getAt nfa.graph.eclosures nextNode
      let (set, err) ← reNodeSetMerge (okFollow s.calls) s.set (some closure)
      some ⟨set, s.calls + 1, err⟩

/-- The loop over the groups, with the sets of the destination states. -/
def destStates (nfa : Nfa) : List Dest → Follows → Option (Follows × List ReNodeSet)
  | [], s => some (s, [])
  | d :: dests, s => do
    let s ← (List.range d.node.nelem.toNat).foldlM (followPass okFollow nfa d.node)
      { s with set := { s.set with nelem := 0 } }
    if s.err ≠ REG_NOERROR then some (s, [])
    else do
      let (t, sets) ← destStates nfa dests s
      some (t, s.set :: sets)

/-- `build_trtable`, up to the tables: the sets of the destination states. -/
def buildTrtable (c : Compiled) (nodes : ReNodeSet) : Option (Except Stop (List ReNodeSet)) := do
  match ← groupNodesIntoDFAstates (c.dfa loc syn) okGroup nodes with
  | .error stop => some (.error stop)
  | .ok [] => some (.ok [])
  | .ok dests =>
    let (follows, err) := reNodeSetAlloc (okFollow 0) (dests.length + 1)
    if err ≠ REG_NOERROR then some (.error .failed)
    else do
      let (s, sets) ← destStates okFollow c.nfa dests ⟨follows, 1, REG_NOERROR⟩
      some (if s.err ≠ REG_NOERROR then .error .failed else .ok sets)

/-! ## Runs -/

/-- `dfa->eclosures + dfa->nexts[idx]`, or `dfa->eclosures + dfa->edests[idx].elems[0]` where the
    group has matched the empty string. -/
def backRefClosure (nfa : Nfa) (emptyMatch : Bool) (idx : Int) : Option ReNodeSet := do
  let dest ← (if emptyMatch then do readCell (← getAt nfa.graph.edests idx).elems 0
    else getAt nfa.nexts idx)
  getAt nfa.graph.eclosures dest

/-- The sets of which states are made; there is no state of an empty set. -/
inductive Reached (c : Compiled) : ReNodeSet → Prop
  | initial : Reached c c.initNodes
  | transit {set nodes follows : ReNodeSet} {sets : List ReNodeSet} {context : Nat}
      (okGroup okFollow : Nat → Bool) (hset : Reached c set)
      (hnodes : contextNodes c.nfa set context = some nodes)
      (htable : buildTrtable loc syn okGroup okFollow c nodes = some (.ok sets))
      (hfollows : follows ∈ sets) (hne : follows.nelem ≠ 0) : Reached c follows
  | backRef {set closure : ReNodeSet} {idx : Int} {token : Eclosure.Token} (emptyMatch : Bool)
      (hset : Reached c set) (hidx : idx ∈ set.members)
      (htoken : getAt c.nfa.graph.nodes idx = some token) (htype : token.type = .opBackRef)
      (hclosure : backRefClosure c.nfa emptyMatch idx = some closure) (hne : closure.nelem ≠ 0) :
      Reached c closure
  | merge {set set' dest new : ReNodeSet} (ok : Bool) (hset : Reached c set)
      (hset' : Reached c set')
      (hnew : reNodeSetInitUnion ok dest (some set) (some set') = some (new, REG_NOERROR)) :
      Reached c new

end Librecompat.Regcomp
