/-
  The epsilon closures of src/regex/regcomp.c: `calc_eclosure`, `calc_eclosure_iter` and
  `calc_inveclosure`.

  `nodes_len` is the length of `nodes`, and the arrays of sets have an entry for each node. Node
  sets are those of `NodeSet.Model`. `ok k` says whether the allocations of the `k`-th call on a
  set succeed. `none` means that a call leaves an array, or that the fuel does not suffice: it
  bounds the depth of the recursion and the number of passes of the loop over the nodes.
  `duplicate_node_closure`, called for nodes with a constraint only, is a parameter.
-/
import Librecompat.NodeSet.Merge

namespace Librecompat.Eclosure

open Librecompat.Lib Librecompat.NodeSet
open Librecompat.Regex (RegErrcode REG_NOERROR REG_ESPACE TokenType)

/-- `re_token_t`. -/
structure Token where
  type : TokenType
  constraint : Nat
  duplicated : Bool

/-- `re_dfa_t`; `calls` counts the calls on sets. -/
structure Dfa where
  nodes : List Token
  edests : List ReNodeSet
  eclosures : List ReNodeSet
  inveclosures : List ReNodeSet
  calls : Nat

/-- One more call on a set. -/
def Dfa.tick (dfa : Dfa) : Dfa := { dfa with calls := dfa.calls + 1 }

/-- `dfa->eclosures[node] = set`. -/
def Dfa.setEclosure (dfa : Dfa) (node : Int) (set : ReNodeSet) : Option Dfa := do
  some { dfa with eclosures := ← setAt dfa.eclosures node set }

/-- `dfa->eclosures[node].nelem = nelem`. -/
def Dfa.setNelem (dfa : Dfa) (node nelem : Int) : Option Dfa := do
  let set ← getAt dfa.eclosures node
  dfa.setEclosure node { set with nelem := nelem }

variable (ok : Nat → Bool)
variable (duplicateNodeClosure : Dfa → Int → Int → Int → Nat → Option (Dfa × RegErrcode))

/-! ## calc_eclosure_iter -/

/-- If the current node has constraints, all nodes are duplicated since they must inherit the
    constraints. -/
def inheritConstraint (dfa : Dfa) (node : Int) : Option (Dfa × RegErrcode) := do
  let token ← getAt dfa.nodes node
  let edests ← getAt dfa.edests node
  if token.constraint ≠ 0 ∧ edests.nelem ≠ 0 then do
    let dest ← getAt dfa.nodes (← readCell edests.elems 0)
    if dest.duplicated then some (dfa, REG_NOERROR)
    else duplicateNodeClosure dfa node node node token.constraint
  else some (dfa, REG_NOERROR)

/-- The variables of the loop that expands each epsilon destination; with an `err` the function
    has returned. -/
structure Expand where
  dfa : Dfa
  eclosure : ReNodeSet
  incomplete : Bool
  err : RegErrcode

/-- The pass of that loop for the destination `i`, with `iter` the recursive call. -/
def expandPass (iter : Dfa → Int → Option (Dfa × ReNodeSet × RegErrcode)) (node : Int)
    (s : Expand) (i : Nat) : Option Expand :=
  if s.err ≠ REG_NOERROR then some s
  else do
    let edests ← getAt s.dfa.edests node
    let edest ← readCell edests.elems i
    let set ← getAt s.dfa.eclosures edest
    -- in progress: an intermediate result
    if set.nelem = -1 then some { s with incomplete := true }
    else do
      let (dfa, elem, err) ← (if set.nelem = 0 then iter s.dfa edest
        else some (s.dfa, set, REG_NOERROR))
      if err ≠ REG_NOERROR then some { s with dfa := dfa, err := err }
      else do
        let (eclosure, err) ← reNodeSetMerge (ok dfa.calls) s.eclosure (some elem)
        let set ← getAt dfa.eclosures edest
        some ⟨dfa.tick, eclosure, s.incomplete || set.nelem = 0, err⟩

/-- The end of the function: a closure that is incomplete is stored for the root only. -/
def storeClosure (s : Expand) (node : Int) (root : Bool) : Option Dfa :=
  if s.incomplete ∧ !root then s.dfa.setNelem node 0 else s.dfa.setEclosure node s.eclosure

/-- `calc_eclosure_iter`, with `*new_set`. No pass of the loop changes `edests[node]`. -/
def calcEclosureIter : Nat → Dfa → Int → Bool → Option (Dfa × ReNodeSet × RegErrcode)
  | 0, _, _, _ => none
  | fuel + 1, dfa, node, root => do
    let edests ← getAt dfa.edests node
    let (eclosure, err) := reNodeSetAlloc (ok dfa.calls) (edests.nelem + 1)
    if err ≠ REG_NOERROR then some (dfa.tick, eclosure, err)
    else do
      -- an epsilon closure includes itself
      let elems ← setAt eclosure.elems eclosure.nelem (some node)
      let eclosure := { eclosure with elems := elems, nelem := eclosure.nelem + 1 }
      let dfa ← dfa.tick.setNelem node (-1)
      let (dfa, err) ← inheritConstraint duplicateNodeClosure dfa node
      if err ≠ REG_NOERROR then some (dfa, eclosure, err)
      else do
        let token ← getAt dfa.nodes node
        let edests ← getAt dfa.edests node
        let iter := fun dfa edest => calcEclosureIter fuel dfa edest false
        let s ← (if token.type.isEpsilonNode then
            (List.range edests.nelem.toNat).foldlM (expandPass ok iter node)
              ⟨dfa, eclosure, false, REG_NOERROR⟩
          else some ⟨dfa, eclosure, false, REG_NOERROR⟩)
        if s.err ≠ REG_NOERROR then some (s.dfa, s.eclosure, s.err)
        else do
          some (← storeClosure s node root, s.eclosure, REG_NOERROR)

/-! ## calc_eclosure -/

/-- The variables of its loop. -/
structure Outer where
  dfa : Dfa
  nodeIdx : Int
  incomplete : Bool

/-- One pass of the loop over the nodes. -/
def eclosurePass (fuel : Nat) (s : Outer) : Option (Outer ⊕ (Dfa × RegErrcode)) :=
  if s.nodeIdx = s.dfa.nodes.length ∧ !s.incomplete then some (.inr (s.dfa, REG_NOERROR))
  else do
    let s := if s.nodeIdx = s.dfa.nodes.length then { s with incomplete := false, nodeIdx := 0 }
      else s
    let set ← getAt s.dfa.eclosures s.nodeIdx
    if set.nelem ≠ 0 then some (.inl { s with nodeIdx := s.nodeIdx + 1 })
    else do
      let (dfa, _, err) ← calcEclosureIter ok duplicateNodeClosure fuel s.dfa s.nodeIdx true
      if err ≠ REG_NOERROR then some (.inr (dfa, err))
      else do
        let set ← getAt dfa.eclosures s.nodeIdx
        some (.inl ⟨dfa, s.nodeIdx + 1, s.incomplete || set.nelem = 0⟩)

def calcEclosure (fuel : Nat) (dfa : Dfa) : Option (Dfa × RegErrcode) :=
  tryLoop (eclosurePass ok duplicateNodeClosure fuel) fuel ⟨dfa, 0, false⟩

/-! ## calc_inveclosure -/

/-- `re_node_set_insert_last (dfa->inveclosures + elem, src)`; with an error the function has
    returned. -/
def invertPass (src : Int) (elems : Cells) (s : Dfa × RegErrcode) (idx : Nat) :
    Option (Dfa × RegErrcode) :=
  if s.2 ≠ REG_NOERROR then some s
  else do
    let elem ← readCell elems idx
    let set ← getAt s.1.inveclosures elem
    let (set, done) ← reNodeSetInsertLast (ok s.1.calls) set src
    let inveclosures ← setAt s.1.inveclosures elem set
    some ({ s.1.tick with inveclosures := inveclosures },
      if done then REG_NOERROR else REG_ESPACE)

/-- The inner loop for one `src`. -/
def invertNode (s : Dfa × RegErrcode) (src : Nat) : Option (Dfa × RegErrcode) :=
  if s.2 ≠ REG_NOERROR then some s
  else do
    let set ← getAt s.1.eclosures src
    (List.range set.nelem.toNat).foldlM (invertPass ok src set.elems) s

/-- `re_node_set_init_empty (dfa->inveclosures + idx)` for every node. -/
def initInveclosures (dfa : Dfa) : Option (List ReNodeSet) :=
  (List.range dfa.nodes.length).foldlM (fun sets (idx : Nat) => setAt sets idx reNodeSetInitEmpty)
    dfa.inveclosures

def calcInveclosure (dfa : Dfa) : Option (Dfa × RegErrcode) := do
  let dfa := { dfa with inveclosures := ← initInveclosures dfa }
  (List.range dfa.nodes.length).foldlM (invertNode ok) (dfa, REG_NOERROR)

end Librecompat.Eclosure
