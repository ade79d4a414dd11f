/-
  The state table of the DFA in src/regex/regex_internal.c.

  A state is a block of the heap, known by its address; the table is an array of spots, each
  with the addresses of the states of one hash bucket. A node set is the list of its elements.
  `entranceNodes = none` means that `entrance_nodes` points to the state's own `nodes`. Only the
  states have addresses: of the other allocations (the elements of a set, the second set of a
  state, the array of a spot) it matters only whether they succeed. `none` means that the call
  goes wrong: it follows a pointer to no state, or leaves the array of nodes or the table.
-/
import Librecompat.Darwin
import Librecompat.Lib.Heap

namespace Librecompat.Regex

open Librecompat.Lib

/-- `reg_errcode_t`. -/
abbrev RegErrcode := Nat

def REG_NOERROR : RegErrcode := 0
def REG_ESPACE : RegErrcode := 12

/-! ## regex_internal.h -/

def PREV_WORD_CONSTRAINT : Nat := 0x0001
def PREV_NOTWORD_CONSTRAINT : Nat := 0x0002
def PREV_NEWLINE_CONSTRAINT : Nat := 0x0010
def PREV_BEGBUF_CONSTRAINT : Nat := 0x0040

def CONTEXT_WORD : Nat := 1
def CONTEXT_NEWLINE : Nat := 2
def CONTEXT_BEGBUF : Nat := 4

/-- The types of nodes in `re_token_type_t`. -/
inductive TokenType where
  | nonType
  | character
  | endOfRe
  | simpleBracket
  | opBackRef
  | opPeriod
  | complexBracket
  | opUtf8Period
  | opOpenSubexp
  | opCloseSubexp
  | opAlt
  | opDupAsterisk
  | anchor
  deriving DecidableEq

/-- `IS_EPSILON_NODE (type)`: the types with `EPSILON_BIT`. -/
def TokenType.isEpsilonNode : TokenType → Bool
  | opOpenSubexp | opCloseSubexp | opAlt | opDupAsterisk | anchor => true
  | _ => false

/-- `re_token_t`. -/
structure Token where
  type : TokenType
  constraint : Nat
  acceptMb : Bool

/-- `NOT_SATISFY_PREV_CONSTRAINT (constraint, context)`. -/
def notSatisfyPrevConstraint (constraint context : Nat) : Bool :=
  (constraint &&& PREV_WORD_CONSTRAINT ≠ 0 && context &&& CONTEXT_WORD = 0) ||
  (constraint &&& PREV_NOTWORD_CONSTRAINT ≠ 0 && context &&& CONTEXT_WORD ≠ 0) ||
  (constraint &&& PREV_NEWLINE_CONSTRAINT ≠ 0 && context &&& CONTEXT_NEWLINE = 0) ||
  (constraint &&& PREV_BEGBUF_CONSTRAINT ≠ 0 && context &&& CONTEXT_BEGBUF = 0)

/-- `re_dfastate_t`, all zero after `calloc`; `context` is a bit-field of width 4. -/
structure DfaState where
  hash : Nat := 0
  nodes : List Nat := []
  nonEpsNodes : List Nat := []
  entranceNodes : Option (List Nat) := none
  context : Nat := 0
  halt : Bool := false
  acceptMb : Bool := false
  hasBackref : Bool := false
  hasConstraint : Bool := false

/-- `*state->entrance_nodes`. -/
def DfaState.entrance (st : DfaState) : List Nat := st.entranceNodes.getD st.nodes

/-- `struct re_state_table_entry`; `num` is the length of `array`. -/
structure Spot where
  alloc : Nat
  array : List Nat

/-- `re_dfa_t` with the memory that holds the states. -/
structure Dfa where
  nodes : List Token
  stateTable : List Spot
  stateHashMask : Nat
  mem : Mem DfaState

variable (A : Allocator DfaState)

/-- An allocation of something other than a state. -/
def allocate (m : Mem DfaState) : Mem DfaState × Bool :=
  ({ m with calls := m.calls + 1 }, !A.fails m.calls)

/-! ## Node sets -/

/-- The allocation in `re_node_set_init_copy`. -/
def reNodeSetInitCopy (m : Mem DfaState) (src : List Nat) : Mem DfaState × Bool :=
  if src.length > 0 then allocate A m else (m, true)

/-- `re_node_set_remove_at`. -/
def reNodeSetRemoveAt (set : List Nat) (idx : Nat) : List Nat := set.eraseIdx idx

/-! ## The table -/

/-- `calc_state_hash`, in `size_t`. -/
def calcStateHash (nodes : List Nat) (context : Nat) : Nat :=
  nodes.foldl (fun hash elem => (hash + elem) % 2 ^ 64) ((nodes.length + context) % 2 ^ 64)

/-- The loop that fills `non_eps_nodes`; its array has room for all of `nodes`. -/
def nonEpsNodes (dfaNodes : List Token) (nodes : List Nat) : Option (List Nat) :=
  nodes.foldlM (fun set elem => (dfaNodes[elem]?).map fun node =>
    if node.type.isEpsilonNode then set else set ++ [elem]) []

/-- `spot->array[spot->num++] = newstate`, after the array has grown if it was full. -/
def addToSpot (spot : Spot) (newstate : Nat) (m : Mem DfaState) : Mem DfaState × Option Spot :=
  if spot.alloc ≤ spot.array.length then
    let newAlloc := 2 * spot.array.length + 2
    let (m, ok) := allocate A m
    (m, if ok then some { alloc := newAlloc, array := spot.array ++ [newstate] } else none)
  else (m, some { spot with array := spot.array ++ [newstate] })

/-- `register_state`, with `st` the contents of `*newstate`. -/
def registerState (newstate : Nat) (st : DfaState) (hash : Nat) (d : Dfa) :
    Option (Dfa × RegErrcode) :=
  let (m, ok) := allocate A d.mem
  if !ok then some ({ d with mem := m }, REG_ESPACE)
  else do
    let set ← nonEpsNodes d.nodes st.nodes
    let m ← store m newstate { st with hash := hash, nonEpsNodes := set }
    let idx := hash &&& d.stateHashMask
    let spot ← d.stateTable[idx]?
    match addToSpot A spot newstate m with
    | (m, none) => some ({ d with mem := m }, REG_ESPACE)
    | (m, some spot) =>
      some ({ d with mem := m, stateTable := d.stateTable.set idx spot }, REG_NOERROR)

/-- `err = register_state (…); if (err != REG_NOERROR) { free_state (newstate); newstate = NULL;
    }` -/
def registerNewstate (newstate : Nat) (st : DfaState) (hash : Nat) (d : Dfa) :
    Option (Dfa × Nat) := do
  let (d, err) ← registerState A newstate st hash d
  if err ≠ REG_NOERROR then some ({ d with mem := ← free d.mem newstate }, 0)
  else some (d, newstate)

/-! ## create_ci_newstate -/

/-- One pass of the loop over the nodes. -/
def ciNode (node : Token) (st : DfaState) : DfaState :=
  if node.type = .character ∧ node.constraint = 0 then st
  else
    let st := { st with acceptMb := st.acceptMb || node.acceptMb }
    if node.type = .endOfRe then { st with halt := true }
    else if node.type = .opBackRef then { st with hasBackref := true }
    else if node.type = .anchor ∨ node.constraint ≠ 0 then { st with hasConstraint := true }
    else st

def createCiNewstate (nodes : List Nat) (hash : Nat) (d : Dfa) : Option (Dfa × Nat) :=
  let (m, newstate) := malloc A d.mem {}
  if newstate = 0 then some ({ d with mem := m }, 0)
  else
    let (m, ok) := reNodeSetInitCopy A m nodes
    if !ok then do some ({ d with mem := ← free m newstate }, 0)
    else do
      let st ← nodes.foldlM (fun st elem => (d.nodes[elem]?).map fun node => ciNode node st)
        { nodes := nodes }
      registerNewstate A newstate st hash { d with mem := m }

/-! ## create_cd_newstate -/

/-- The flags that a node sets. -/
def cdNode (node : Token) (st : DfaState) : DfaState :=
  let st := { st with acceptMb := st.acceptMb || node.acceptMb }
  if node.type = .endOfRe then { st with halt := true }
  else if node.type = .opBackRef then { st with hasBackref := true }
  else st

/-- At the first node with a constraint the entrance nodes get a set of their own. -/
def copyEntrance (nodes : List Nat) (m : Mem DfaState) (st : DfaState) (nctxNodes : Nat) :
    Mem DfaState × Option (DfaState × Nat) :=
  if st.entranceNodes.isSome then (m, some (st, nctxNodes))
  else
    let (m, ok) := allocate A m
    if !ok then (m, none)
    else
      let (m, ok) := reNodeSetInitCopy A m nodes
      if !ok then (m, none)
      else (m, some ({ st with entranceNodes := some nodes, hasConstraint := true }, 0))

/-- The loop over the nodes from index `i` on; it ends early when an allocation fails. -/
def cdLoop (dfaNodes : List Token) (nodes : List Nat) (context : Nat) :
    List Nat → Nat → Nat → Mem DfaState → DfaState → Option (Mem DfaState × Option DfaState)
  | [], _, _, m, st => some (m, some st)
  | elem :: rest, i, nctxNodes, m, st =>
    (dfaNodes[elem]?).bind fun node =>
      if node.type = .character ∧ node.constraint = 0 then
        cdLoop dfaNodes nodes context rest (i + 1) nctxNodes m st
      else if node.constraint = 0 then
        cdLoop dfaNodes nodes context rest (i + 1) nctxNodes m (cdNode node st)
      else
        match copyEntrance A nodes m (cdNode node st) nctxNodes with
        | (m, none) => some (m, none)
        | (m, some (st, nctxNodes)) =>
          if notSatisfyPrevConstraint node.constraint context then
            cdLoop dfaNodes nodes context rest (i + 1) (nctxNodes + 1) m
              { st with nodes := reNodeSetRemoveAt st.nodes (i - nctxNodes) }
          else cdLoop dfaNodes nodes context rest (i + 1) nctxNodes m st

def createCdNewstate (nodes : List Nat) (context hash : Nat) (d : Dfa) : Option (Dfa × Nat) :=
  let (m, newstate) := malloc A d.mem {}
  if newstate = 0 then some ({ d with mem := m }, 0)
  else
    let (m, ok) := reNodeSetInitCopy A m nodes
    if !ok then do some ({ d with mem := ← free m newstate }, 0)
    else do
      match ← cdLoop A d.nodes nodes context nodes 0 0 m
          { nodes := nodes, context := context % 2 ^ 4 } with
      | (m, none) => some ({ d with mem := ← free m newstate }, 0)
      | (m, some st) => registerNewstate A newstate st hash { d with mem := m }

/-! ## re_acquire_state, re_acquire_state_context -/

/-- `for (i = 0 ; i < spot->num ; i++)`: the first state with the property `p`. -/
def findState (m : Mem DfaState) (p : DfaState → Bool) : List Nat → Option (Option Nat)
  | [] => some none
  | state :: array =>
    (m.heap.get state).bind fun st => if p st then some (some state) else findState m p array

/-- What the two functions do once they have a hash value. -/
def acquire (hash : Nat) (p : DfaState → Bool) (create : Dfa → Option (Dfa × Nat))
    (err : RegErrcode) (d : Dfa) : Option (Dfa × Nat × RegErrcode) := do
  let spot ← d.stateTable[hash &&& d.stateHashMask]?
  match ← findState d.mem p spot.array with
  | some state => some (d, state, err)
  | none =>
    let (d, newState) ← create d
    some (d, newState, if newState = 0 then REG_ESPACE else err)

def reAcquireState (nodes : List Nat) (err : RegErrcode) (d : Dfa) :
    Option (Dfa × Nat × RegErrcode) :=
  if nodes.length = 0 then some (d, 0, REG_NOERROR)
  else
    let hash := calcStateHash nodes 0
    acquire hash (fun st => st.hash = hash && st.nodes = nodes) (createCiNewstate A nodes hash) err d

def reAcquireStateContext (nodes : List Nat) (context : Nat) (err : RegErrcode) (d : Dfa) :
    Option (Dfa × Nat × RegErrcode) :=
  if nodes.length = 0 then some (d, 0, REG_NOERROR)
  else
    let hash := calcStateHash nodes context
    acquire hash (fun st => st.hash = hash && st.context = context && st.entrance = nodes)
      (createCdNewstate A nodes context hash) err d

end Librecompat.Regex
