/-
  From the tree to the nodes of the automaton in src/regex/regcomp.c: `analyze` up to
  `calc_eclosure`.

  A tree has the fields `first`, `next` and `node_idx` in functions of its pointer; a null pointer is
  `none`, and `node_idx` is `-1` at first. The nodes are those of `Eclosure.Model`, with `opr` in a
  list of its own. `okTree k` says whether the `k`-th chunk of trees can be allocated, `ok k` whether
  the `k`-th of the other allocations succeeds; these are counted by `graph.calls`. `fresh k` is
  what the cell `k` of `org_indices` has before it is written. `none`
  means that a call follows a null pointer or leaves an array, that a token becomes no node, or that
  the fuel does not suffice.
-/
import Librecompat.Eclosure.Model
import Librecompat.RegTree.Walkers

namespace Librecompat.Regcomp

open Librecompat.Lib Librecompat.NodeSet
open Librecompat.RegTree (BinTree Visitor createTree setParent andThen)
open Librecompat.Regex (RegErrcode REG_NOERROR REG_ESPACE)
open Librecompat.Eclosure (storeClosure)

def BITSET_WORD_BITS : Nat := 64

/-- `re_dfa_t` and of `regex_t` what the compiler needs. -/
structure Nfa where
  tree : RegTree.Dfa
  first : Nat → Option Nat
  next : Nat → Option Nat
  nodeIdx : Nat → Int
  graph : Eclosure.Dfa
  oprs : List Nat
  nexts : List Int
  orgIndices : List Int
  subexpMap : Option (List Nat)
  usedBkrefMap : Nat
  reNsub : Nat
  noSub : Bool

/-- The types of the tokens that become nodes. -/
def nodeType : RegTree.TokenType → Option Regex.TokenType
  | .character => some .character
  | .endOfRe => some .endOfRe
  | .simpleBracket => some .simpleBracket
  | .opBackRef => some .opBackRef
  | .opPeriod => some .opPeriod
  | .complexBracket => some .complexBracket
  | .opUtf8Period => some .opUtf8Period
  | .opOpenSubexp => some .opOpenSubexp
  | .opCloseSubexp => some .opCloseSubexp
  | .opAlt => some .opAlt
  | .opDupAsterisk => some .opDupAsterisk
  | .anchor => some .anchor
  | _ => none

variable (okTree ok : Nat → Bool) (fresh : Nat → Int)

def Nfa.trees (nfa : Nfa) : List BinTree := nfa.tree.trees

/-- A change of the node that a pointer leads to. -/
def Nfa.modify (nfa : Nfa) (node : Nat) (f : BinTree → BinTree) : Option Nfa := do
  some { nfa with tree := ← nfa.tree.modify node f }

def Nfa.create (nfa : Nfa) (left right : Option Nat) (type : RegTree.TokenType) :
    Option (Nfa × Option Nat) := do
  let (tree, new) ← createTree okTree nfa.tree left right type
  some ({ nfa with tree := tree }, new)

/-- `dfa->nodes[idx].constraint = constraint`. -/
def Nfa.setConstraint (nfa : Nfa) (idx : Int) (constraint : Nat) : Option Nfa := do
  let node ← getAt nfa.graph.nodes idx
  let nodes ← setAt nfa.graph.nodes idx { node with constraint := constraint }
  some { nfa with graph := { nfa.graph with nodes := nodes } }

/-- `dfa->edests[idx] = set`. -/
def Nfa.setEdests (nfa : Nfa) (idx : Int) (set : ReNodeSet) : Option Nfa := do
  some { nfa with graph := { nfa.graph with edests := ← setAt nfa.graph.edests idx set } }

/-- `dfa->nexts[idx] = next`. -/
def Nfa.setNext (nfa : Nfa) (idx next : Int) : Option Nfa := do
  some { nfa with nexts := ← setAt nfa.nexts idx next }

/-- `re_dfa_add_node`: the index of the new node, or `-1` when the arrays cannot be made larger. -/
def Nfa.addNode (nfa : Nfa) (type : Regex.TokenType) (opr : Nat) (duplicated : Bool) : Nfa × Int :=
  if !ok nfa.graph.calls then ({ nfa with graph := nfa.graph.tick }, -1)
  else
    let graph := { nfa.graph.tick with
      nodes := nfa.graph.nodes ++ [⟨type, 0, duplicated⟩]
      edests := nfa.graph.edests ++ [reNodeSetInitEmpty]
      eclosures := nfa.graph.eclosures ++ [reNodeSetInitEmpty] }
    ({ nfa with
      graph := graph
      oprs := nfa.oprs ++ [opr]
      nexts := nfa.nexts ++ [-1]
      orgIndices := nfa.orgIndices ++ [fresh nfa.orgIndices.length] }, nfa.graph.nodes.length)

/-! ## optimize_subexps, lower_subexps -/

/-- A subexpression that is all of a subexpression is stripped. -/
def stripSubexp (nfa : Nfa) (node inner : Nat) (tree innerTree : BinTree) : Option Nfa := do
  let otherIdx := innerTree.token.opr
  let nfa ← nfa.modify node fun tree => { tree with left := innerTree.left }
  let trees ← setParent nfa.trees node innerTree.left
  let map ← nfa.subexpMap
  let outer ← map[tree.token.opr]?
  let map ← if otherIdx < map.length then some (map.set otherIdx outer) else none
  some { nfa with
    tree := { nfa.tree with trees := trees }
    subexpMap := some map
    usedBkrefMap :=
      if otherIdx < BITSET_WORD_BITS then
        nfa.usedBkrefMap &&& (2 ^ BITSET_WORD_BITS - 1 ^^^ 1 <<< otherIdx)
      else nfa.usedBkrefMap }

def optimizeSubexps : Visitor Nfa := fun node nfa => do
  let tree ← nfa.trees[node]?
  match tree.token.type, nfa.subexpMap with
  | .opBackRef, some map => do
    let idx ← map[tree.token.opr]?
    let nfa ← nfa.modify node fun tree => { tree with token := { tree.token with opr := idx } }
    some ({ nfa with usedBkrefMap := nfa.usedBkrefMap ||| 1 <<< idx }, REG_NOERROR)
  | .subexp, _ => do
    match tree.left with
    | none => some (nfa, REG_NOERROR)
    | some left => do
      let leftTree ← nfa.trees[left]?
      if leftTree.token.type = .subexp then do
        some (← stripSubexp nfa node left tree leftTree, REG_NOERROR)
      else some (nfa, REG_NOERROR)
  | _, _ => some (nfa, REG_NOERROR)

/-- `lower_subexp`, with `*err`. -/
def lowerSubexp (nfa : Nfa) (node : Nat) : Option (Nfa × Option Nat × RegErrcode) := do
  let tree ← nfa.trees[node]?
  let idx := tree.token.opr
  let unused := BITSET_WORD_BITS ≤ idx || nfa.usedBkrefMap &&& 1 <<< idx = 0
  if nfa.noSub && tree.left.isSome && unused then some (nfa, tree.left, REG_NOERROR)
  else do
    let (nfa, op) ← nfa.create okTree none none .opOpenSubexp
    let (nfa, cls) ← nfa.create okTree none none .opCloseSubexp
    let (nfa, tree1) ← (if tree.left.isSome then nfa.create okTree tree.left cls .concat
      else some (nfa, cls))
    let (nfa, new) ← nfa.create okTree op tree1 .concat
    match op, cls, tree1, new with
    | some op, some cls, some _, some new => do
      let mark := fun (tree' : BinTree) => { tree' with
        token := { tree'.token with opr := idx, optSubexp := tree.token.optSubexp } }
      let nfa ← nfa.modify op mark
      let nfa ← nfa.modify cls mark
      some (nfa, some new, REG_NOERROR)
    | _, _, _, _ => some (nfa, none, REG_ESPACE)

/-- One child of `lower_subexps`, put back by `put`. -/
def lowerChild (put : BinTree → Option Nat → BinTree) (node : Nat) (child : Option Nat)
    (nfa : Nfa) (err : RegErrcode) : Option (Nfa × RegErrcode) :=
  match child with
  | none => some (nfa, err)
  | some child => do
    let tree ← nfa.trees[child]?
    if tree.token.type = .subexp then do
      let (nfa, new, err') ← lowerSubexp okTree nfa child
      let nfa ← nfa.modify node fun tree => put tree new
      let trees ← setParent nfa.trees node new
      some ({ nfa with tree := { nfa.tree with trees := trees } },
        if err' ≠ REG_NOERROR then err' else err)
    else some (nfa, err)

def lowerSubexps : Visitor Nfa := fun node nfa => do
  let tree ← nfa.trees[node]?
  let (nfa, err) ← lowerChild okTree (fun tree new => { tree with left := new }) node tree.left nfa
    REG_NOERROR
  lowerChild okTree (fun tree new => { tree with right := new }) node tree.right nfa err

/-! ## calc_first, calc_next, link_nfa_nodes -/

def calcFirst : Visitor Nfa := fun node nfa => do
  let tree ← nfa.trees[node]?
  if tree.token.type = .concat then do
    let left ← tree.left
    some ({ nfa with
      first := Function.update nfa.first node (nfa.first left)
      nodeIdx := Function.update nfa.nodeIdx node (nfa.nodeIdx left) }, REG_NOERROR)
  else do
    let type ← nodeType tree.token.type
    let (nfa, idx) := nfa.addNode ok fresh type tree.token.opr tree.token.duplicated
    let nfa := { nfa with
      first := Function.update nfa.first node (some node)
      nodeIdx := Function.update nfa.nodeIdx node idx }
    if idx = -1 then some (nfa, REG_ESPACE)
    else if type = .anchor then do some (← nfa.setConstraint idx tree.token.opr, REG_NOERROR)
    else some (nfa, REG_NOERROR)

/-- `node->next = next` if there is a node. -/
def Nfa.putNext (nfa : Nfa) (next : Option Nat) : Option Nat → Nfa
  | none => nfa
  | some node => { nfa with next := Function.update nfa.next node next }

def calcNext : Visitor Nfa := fun node nfa => do
  let tree ← nfa.trees[node]?
  match tree.token.type with
  | .opDupAsterisk => do
    let left ← tree.left
    some (nfa.putNext (some node) (some left), REG_NOERROR)
  | .concat => do
    let left ← tree.left
    let right ← tree.right
    let nfa := nfa.putNext (nfa.first right) (some left)
    some (nfa.putNext (nfa.next node) (some right), REG_NOERROR)
  | _ =>
    let nfa := nfa.putNext (nfa.next node) tree.left
    some (nfa.putNext (nfa.next node) tree.right, REG_NOERROR)

/-- `node->next->node_idx`. -/
def Nfa.nextIdx (nfa : Nfa) (node : Nat) : Option Int := (nfa.next node).map nfa.nodeIdx

/-- `node->left->first->node_idx`, and likewise on the right; without a child it is the next
    node. -/
def Nfa.branchIdx (nfa : Nfa) (node : Nat) : Option Nat → Option Int
  | none => nfa.nextIdx node
  | some child => (nfa.first child).map nfa.nodeIdx

/-- A call that makes the set `edests[idx]`. -/
def Nfa.initEdests (nfa : Nfa) (idx : Int) (r : Option (ReNodeSet × RegErrcode)) :
    Option (Nfa × RegErrcode) := do
  let (set, err) ← r
  let nfa := { nfa with graph := nfa.graph.tick }
  some (← nfa.setEdests idx set, err)

def linkNfaNodes : Visitor Nfa := fun node nfa => do
  let tree ← nfa.trees[node]?
  let idx := nfa.nodeIdx node
  match tree.token.type with
  | .concat | .endOfRe => some (nfa, REG_NOERROR)
  | .opDupAsterisk | .opAlt => do
    let left ← nfa.branchIdx node tree.left
    let right ← nfa.branchIdx node tree.right
    let set ← getAt nfa.graph.edests idx
    nfa.initEdests idx (reNodeSetInit2 (ok nfa.graph.calls) set left right)
  | .anchor | .opOpenSubexp | .opCloseSubexp => do
    nfa.initEdests idx (reNodeSetInit1 (ok nfa.graph.calls) (← nfa.nextIdx node))
  | .opBackRef => do
    let next ← nfa.nextIdx node
    (← nfa.setNext idx next).initEdests idx (reNodeSetInit1 (ok nfa.graph.calls) next)
  | _ => do some (← nfa.setNext idx (← nfa.nextIdx node), REG_NOERROR)

/-! ## duplicate_node_closure -/

/-- `duplicate_node`: the index of the copy, or `-1`. -/
def duplicateNode (nfa : Nfa) (orgIdx : Int) (constraint : Nat) : Option (Nfa × Int) := do
  let org ← getAt nfa.graph.nodes orgIdx
  let opr ← getAt nfa.oprs orgIdx
  let (nfa, dupIdx) := nfa.addNode ok fresh org.type opr true
  if dupIdx = -1 then some (nfa, -1)
  else do
    let nfa ← nfa.setConstraint dupIdx (constraint ||| org.constraint)
    some ({ nfa with orgIndices := ← setAt nfa.orgIndices dupIdx orgIdx }, dupIdx)

/-- The loop of `search_duplicated_node`, from the index `idx` down. -/
def searchDuplicatedNode (nfa : Nfa) (orgNode : Int) (constraint : Nat) : Nat → Option Int
  | 0 => some (-1)
  | idx + 1 => do
    let node ← getAt nfa.graph.nodes (idx + 1 : Nat)
    if !node.duplicated then some (-1)
    else do
      let org ← getAt nfa.orgIndices (idx + 1 : Nat)
      if orgNode = org ∧ constraint = node.constraint then some (idx + 1 : Nat)
      else searchDuplicatedNode nfa orgNode constraint idx

/-- `re_node_set_insert (dfa->edests + node, dest)`, with an error where the set cannot grow. -/
def Nfa.insertEdest (nfa : Nfa) (node dest : Int) : Option (Nfa × RegErrcode) := do
  let set ← getAt nfa.graph.edests node
  let (set, done) ← reNodeSetInsert (ok nfa.graph.calls) set dest
  let nfa := { nfa with graph := nfa.graph.tick }
  some (← nfa.setEdests node set, if done then REG_NOERROR else REG_ESPACE)

/-- `re_node_set_empty (dfa->edests + node)`. -/
def Nfa.emptyEdests (nfa : Nfa) (node : Int) : Option Nfa := do
  let set ← getAt nfa.graph.edests node
  nfa.setEdests node { set with nelem := 0 }

/-- A copy of a destination, put into the set of the clone; `k` goes on with the copy. -/
def copyDest (nfa : Nfa) (orgDest cloneNode : Int) (constraint : Nat)
    (k : Nfa → Int → Option (Nfa × RegErrcode)) : Option (Nfa × RegErrcode) := do
  let (nfa, cloneDest) ← duplicateNode ok fresh nfa orgDest constraint
  if cloneDest = -1 then some (nfa, REG_ESPACE)
  else do
    let (nfa, err) ← nfa.insertEdest ok cloneNode cloneDest
    if err ≠ REG_NOERROR then some (nfa, err) else k nfa cloneDest

/-- `duplicate_node_closure`: a pass of its loop, and the calls of it that follow. -/
def duplicateNodeClosure : Nat → Nfa → Int → Int → Int → Nat → Option (Nfa × RegErrcode)
  | 0, _, _, _, _, _ => none
  | fuel + 1, nfa, orgNode, cloneNode, rootNode, constraint => do
    let node ← getAt nfa.graph.nodes orgNode
    let edests ← getAt nfa.graph.edests orgNode
    if node.type = .opBackRef then do
      -- the destination must also have the constraint
      let orgDest ← getAt nfa.nexts orgNode
      let nfa ← nfa.emptyEdests cloneNode
      let (nfa, cloneDest) ← duplicateNode ok fresh nfa orgDest constraint
      if cloneDest = -1 then some (nfa, REG_ESPACE)
      else do
        let nfa ← nfa.setNext cloneNode (← getAt nfa.nexts orgNode)
        let (nfa, err) ← nfa.insertEdest ok cloneNode cloneDest
        if err ≠ REG_NOERROR then some (nfa, err)
        else duplicateNodeClosure fuel nfa orgDest cloneDest rootNode constraint
    else if edests.nelem = 0 then do
      -- the original destination is the destination of the node
      some (← nfa.setNext cloneNode (← getAt nfa.nexts orgNode), REG_NOERROR)
    else if edests.nelem = 1 then do
      let orgDest ← readCell edests.elems 0
      let nfa ← nfa.emptyEdests cloneNode
      -- the epsilon closure has a loop: tie it to the destination of the root node
      if orgNode = rootNode ∧ cloneNode ≠ orgNode then nfa.insertEdest ok cloneNode orgDest
      else
        let constraint := constraint ||| node.constraint
        copyDest ok fresh nfa orgDest cloneNode constraint fun nfa cloneDest =>
          duplicateNodeClosure fuel nfa orgDest cloneDest rootNode constraint
    else do
      let orgDest ← readCell edests.elems 0
      let nfa ← nfa.emptyEdests cloneNode
      let found ← searchDuplicatedNode nfa orgDest constraint (nfa.graph.nodes.length - 1)
      let (nfa, err) ← (if found = -1 then
          copyDest ok fresh nfa orgDest cloneNode constraint fun nfa cloneDest =>
            duplicateNodeClosure fuel nfa orgDest cloneDest rootNode constraint
        -- use it to avoid an infinite loop
        else nfa.insertEdest ok cloneNode found)
      if err ≠ REG_NOERROR then some (nfa, err)
      else do
        let edests ← getAt nfa.graph.edests orgNode
        let orgDest ← readCell edests.elems 1
        copyDest ok fresh nfa orgDest cloneNode constraint fun nfa cloneDest =>
          duplicateNodeClosure fuel nfa orgDest cloneDest rootNode constraint

/-! ## calc_eclosure -/

/-- If the current node has constraints, all nodes are duplicated since they must inherit the
    constraints. -/
def inheritConstraint (fuel : Nat) (nfa : Nfa) (node : Int) : Option (Nfa × RegErrcode) := do
  let token ← getAt nfa.graph.nodes node
  let edests ← getAt nfa.graph.edests node
  if token.constraint ≠ 0 ∧ edests.nelem ≠ 0 then do
    let dest ← getAt nfa.graph.nodes (← readCell edests.elems 0)
    if dest.duplicated then some (nfa, REG_NOERROR)
    else duplicateNodeClosure ok fresh fuel nfa node node node token.constraint
  else some (nfa, REG_NOERROR)

/-- The variables of the loop that expands each epsilon destination; `s.dfa` is the graph of the
    nodes, and with an `s.err` the function has returned. -/
structure Expand where
  nfa : Nfa
  eclosure : ReNodeSet
  incomplete : Bool
  err : RegErrcode

/-- The pass of that loop for the destination `i`, with `iter` the recursive call. -/
def expandPass (iter : Nfa → Int → Option (Nfa × ReNodeSet × RegErrcode)) (node : Int)
    (s : Expand) (i : Nat) : Option Expand :=
  if s.err ≠ REG_NOERROR then some s
  else do
    let edests ← getAt s.nfa.graph.edests node
    let edest ← readCell edests.elems i
    let set ← getAt s.nfa.graph.eclosures edest
    -- in progress: an intermediate result
    if set.nelem = -1 then some { s with incomplete := true }
    else do
      let (nfa, elem, err) ← (if set.nelem = 0 then iter s.nfa edest
        else some (s.nfa, set, REG_NOERROR))
      if err ≠ REG_NOERROR then some { s with nfa := nfa, err := err }
      else do
        let (eclosure, err) ← reNodeSetMerge (ok nfa.graph.calls) s.eclosure (some elem)
        let set ← getAt nfa.graph.eclosures edest
        let nfa := { nfa with graph := nfa.graph.tick }
        some ⟨nfa, eclosure, s.incomplete || set.nelem = 0, err⟩

/-- `calc_eclosure_iter`, with `*new_set`. -/
def calcEclosureIter : Nat → Nfa → Int → Bool → Option (Nfa × ReNodeSet × RegErrcode)
  | 0, _, _, _ => none
  | fuel + 1, nfa, node, root => do
    let edests ← getAt nfa.graph.edests node
    let (eclosure, err) := reNodeSetAlloc (ok nfa.graph.calls) (edests.nelem + 1)
    let nfa := { nfa with graph := nfa.graph.tick }
    if err ≠ REG_NOERROR then some (nfa, eclosure, err)
    else do
      -- an epsilon closure includes itself
      let elems ← setAt eclosure.elems eclosure.nelem (some node)
      let eclosure := { eclosure with elems := elems, nelem := eclosure.nelem + 1 }
      let nfa := { nfa with graph := ← nfa.graph.setNelem node (-1) }
      let (nfa, err) ← inheritConstraint ok fresh fuel nfa node
      if err ≠ REG_NOERROR then some (nfa, eclosure, err)
      else do
        let token ← getAt nfa.graph.nodes node
        let edests ← getAt nfa.graph.edests node
        let iter := fun nfa edest => calcEclosureIter fuel nfa edest false
        let s ← (if token.type.isEpsilonNode then
            (List.range edests.nelem.toNat).foldlM (expandPass ok iter node)
              ⟨nfa, eclosure, false, REG_NOERROR⟩
          else some ⟨nfa, eclosure, false, REG_NOERROR⟩)
        if s.err ≠ REG_NOERROR then some (s.nfa, s.eclosure, s.err)
        else do
          let graph ← storeClosure ⟨s.nfa.graph, s.eclosure, s.incomplete, s.err⟩ node root
          some ({ s.nfa with graph := graph }, s.eclosure, REG_NOERROR)

/-- The variables of the loop of `calc_eclosure`. -/
structure Outer where
  nfa : Nfa
  nodeIdx : Int
  incomplete : Bool

/-- One pass of the loop over the nodes. -/
def eclosurePass (fuel : Nat) (s : Outer) : Option (Outer ⊕ (Nfa × RegErrcode)) :=
  if s.nodeIdx = s.nfa.graph.nodes.length ∧ !s.incomplete then some (.inr (s.nfa, REG_NOERROR))
  else do
    let s := if s.nodeIdx = s.nfa.graph.nodes.length then
        { s with incomplete := false, nodeIdx := 0 }
      else s
    let set ← getAt s.nfa.graph.eclosures s.nodeIdx
    if set.nelem ≠ 0 then some (.inl { s with nodeIdx := s.nodeIdx + 1 })
    else do
      let (nfa, _, err) ← calcEclosureIter ok fresh fuel s.nfa s.nodeIdx true
      if err ≠ REG_NOERROR then some (.inr (nfa, err))
      else do
        let set ← getAt nfa.graph.eclosures s.nodeIdx
        some (.inl ⟨nfa, s.nodeIdx + 1, s.incomplete || set.nelem = 0⟩)

def calcEclosure (fuel : Nat) (nfa : Nfa) : Option (Nfa × RegErrcode) :=
  tryLoop (eclosurePass ok fresh fuel) fuel ⟨nfa, 0, false⟩

/-! ## analyze -/

/-- The map of the subexpressions, as long as it is needed. -/
def withSubexpMap (fuel : Nat) (root : Nat) (nfa : Nfa) : Option (Nfa × RegErrcode) :=
  if !ok nfa.graph.calls then
    some ({ nfa with graph := nfa.graph.tick, subexpMap := none }, REG_NOERROR)
  else do
    let map := List.range nfa.reNsub
    let (nfa, _) ← Visitor.preorder Nfa.trees optimizeSubexps fuel
      { nfa with graph := nfa.graph.tick, subexpMap := some map } root
    some (if nfa.subexpMap = some map then { nfa with subexpMap := none } else nfa, REG_NOERROR)

/-- `analyze`, for the root of the tree; the sets of `calc_inveclosure` are not needed here. -/
def analyze (fuel : Nat) (root : Nat) (nfa : Nfa) : Option (Nfa × RegErrcode) :=
  if !ok nfa.graph.calls then some ({ nfa with graph := nfa.graph.tick }, REG_ESPACE)
  else
    andThen (withSubexpMap ok fuel root { nfa with graph := nfa.graph.tick }) fun nfa =>
    andThen (Visitor.postorder Nfa.trees (lowerSubexps okTree) fuel nfa root) fun nfa =>
    andThen (Visitor.postorder Nfa.trees (calcFirst ok fresh) fuel nfa root) fun nfa =>
    andThen (Visitor.preorder Nfa.trees calcNext fuel nfa root) fun nfa =>
    andThen (Visitor.preorder Nfa.trees (linkNfaNodes ok) fuel nfa root) (calcEclosure ok fresh fuel)

end Librecompat.Regcomp
