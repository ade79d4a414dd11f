/-
  How src/regex/regexec.c matches a string in a single-byte locale without a log of the states:
  `check_matching` and what it calls, with the string of src/regex/regex_internal.c.

  `Source` is what stays as it is while a string is searched. Of the buffer `mbs` a string has the
  `valid_len` bytes that are built: to read another one is undefined. `okBuf n` says whether the
  buffer can be made `n` bytes long, the allocator is that of the states, `okGroup` and `okFollow`
  are those of `Regcomp.States`. The tables of the states are a function of their addresses; a state
  has no `word_trtable` in such a locale. `none` means that a call follows a pointer to no state,
  reads what is not there, or writes past the arrays of `build_trtable`.
-/
import Librecompat.Regcomp.States

namespace Librecompat.Regexec

open Librecompat.Lib Librecompat.NodeSet Librecompat.Regcomp
open Librecompat.Grouping (Dest NEWLINE_CHAR groupNodesIntoDFAstates)
open Librecompat.Regex

def REG_NOMATCH : RegErrcode := 1

def REG_NOTBOL : Nat := 1
def REG_NOTEOL : Nat := 2

def CONTEXT_ENDBUF : Nat := 8

/-- `MIN (IDX_MAX, SIZE_MAX / sizeof (re_dfastate_t *)) / 2`. -/
def BUFS_MAX : Int := 2 ^ 60 - 1

/-! ## re_string_t -/

structure Source where
  rawMbs : List UInt8
  rawStop : Int
  trans : Option (UInt8 → UInt8)
  icase : Bool
  newlineAnchor : Bool
  wordChar : Bitset
  eflags : Nat
  toupper : UInt8 → UInt8
  okBuf : Int → Bool

structure ReString where
  mbs : List UInt8
  rawMbsIdx : Nat
  validRawLen : Nat
  bufsLen : Int
  curIdx : Nat
  len : Int
  stop : Int
  tipContext : Nat

variable (src : Source)

def Source.mbsAllocated : Bool := src.trans.isSome || src.icase

def Source.translate (ch : UInt8) : UInt8 := src.trans.elim ch fun trans => trans ch

/-- What `build_upper_buffer` or `re_string_translate_buffer` makes of a byte. -/
def Source.built (ch : UInt8) : UInt8 :=
  if src.icase then src.toupper (src.translate ch) else src.translate ch

/-- The context that a character makes for what comes behind it. -/
def Source.charContext (ch : UInt8) : Nat :=
  if bitsetContain src.wordChar ch.toNat then CONTEXT_WORD
  else if ch.toNat = NEWLINE_CHAR ∧ src.newlineAnchor then CONTEXT_NEWLINE else 0

def Source.beginContext : Nat :=
  if src.eflags &&& REG_NOTBOL ≠ 0 then CONTEXT_BEGBUF else CONTEXT_NEWLINE ||| CONTEXT_BEGBUF

def Source.endContext : Nat :=
  if src.eflags &&& REG_NOTEOL ≠ 0 then CONTEXT_ENDBUF else CONTEXT_NEWLINE ||| CONTEXT_ENDBUF

/-- `re_string_context_at`. -/
def ReString.contextAt (s : ReString) (idx : Int) : Option Nat :=
  if idx < 0 then some s.tipContext
  else if idx = s.len then some src.endContext
  else (getAt s.mbs idx).map src.charContext

/-- `build_upper_buffer`, `re_string_translate_buffer`. -/
def ReString.build (s : ReString) : ReString :=
  let endIdx := min s.bufsLen s.len
  let more := ((src.rawMbs.drop (s.rawMbsIdx + s.mbs.length)).take
    (endIdx - s.mbs.length).toNat).map src.built
  { s with mbs := s.mbs ++ more, validRawLen := (s.mbs ++ more).length }

/-- `re_string_allocate`, with `init_len` one more than the nodes. -/
def reStringAllocate (nodesLen : Nat) : ReString × RegErrcode :=
  let len : Int := src.rawMbs.length
  let bufsLen := min (len + 1) (nodesLen + 1)
  let mbs := if src.mbsAllocated then [] else src.rawMbs
  let s : ReString := {
    mbs := mbs
    rawMbsIdx := 0
    validRawLen := mbs.length
    bufsLen := bufsLen
    curIdx := 0
    len := len
    stop := src.rawStop
    tipContext := src.beginContext }
  (s, if src.mbsAllocated ∧ !src.okBuf bufsLen then REG_ESPACE else REG_NOERROR)

/-- The buffer is reset. -/
def ReString.reset (s : ReString) : ReString :=
  { s with
    mbs := []
    rawMbsIdx := 0
    validRawLen := 0
    len := src.rawMbs.length
    stop := src.rawStop
    tipContext := src.beginContext }

/-- The characters in front of `offset` are dropped, those that are checked already or all of
    them. -/
def ReString.skip (s : ReString) (offset : Nat) : Option ReString :=
  if offset = 0 then some s
  else if offset < s.validRawLen then do
    let context ← s.contextAt src (offset - 1)
    some { s with
      mbs := s.mbs.drop offset
      validRawLen := s.validRawLen - offset
      tipContext := context }
  else do
    let c ← src.rawMbs[s.rawMbsIdx + offset - 1]?
    some { s with
      mbs := []
      validRawLen := 0
      tipContext := src.charContext (src.translate c) }

/-- The string stands at `idx`, and the buffer is built. -/
def ReString.place (s : ReString) (idx offset : Nat) : ReString :=
  let s := { s with rawMbsIdx := idx, len := s.len - offset, stop := s.stop - offset }
  let s := if src.mbsAllocated then s.build src else { s with mbs := src.rawMbs.drop idx }
  { s with curIdx := 0 }

/-- `re_string_reconstruct`. -/
def reStringReconstruct (s : ReString) (idx : Nat) : Option ReString := do
  let (s, offset) :=
    if s.rawMbsIdx ≤ idx then (s, idx - s.rawMbsIdx) else (s.reset src, idx)
  let s ← s.skip src offset
  some (s.place src idx offset)

/-- `extend_buffers`; its parameter is an `int`. -/
def extendBuffers (s : ReString) (minLen : Nat) : ReString × RegErrcode :=
  if BUFS_MAX ≤ s.bufsLen then (s, REG_ESPACE)
  else
    let bufsLen := max (Int.bmod minLen (2 ^ 32)) (min s.len (s.bufsLen * 2))
    if src.mbsAllocated ∧ !src.okBuf bufsLen then (s, REG_ESPACE)
    else
      let s := { s with bufsLen := bufsLen }
      (if src.mbsAllocated then s.build src else s, REG_NOERROR)

/-- `re_string_eoi`. -/
def ReString.eoi (s : ReString) : Bool := s.stop ≤ s.curIdx

/-- `re_string_fetch_byte`. -/
def ReString.fetchByte (s : ReString) : Option (UInt8 × ReString) :=
  s.mbs[s.curIdx]?.map fun ch => (ch, { s with curIdx := s.curIdx + 1 })

/-! ## build_trtable -/

/-- What of `re_dfa_t` changes: the states and their tables. -/
structure Machine where
  dfa : Regex.Dfa
  trtable : Nat → Option (UInt8 → Nat)

/-- The states of a destination, for its characters. -/
structure DestStates where
  ch : Bitset
  plain : Nat
  word : Nat
  nl : Nat

variable (A : Allocator DfaState)

/-- `dest_states[i]`, `dest_states_word[i]` and `dest_states_nl[i]`; without them, `out_free`. -/
def acquireDest (follows : List Nat) (ch : Bitset) (dfa : Regex.Dfa) :
    Option (Regex.Dfa × Option DestStates) := do
  let (dfa, plain, err) ← reAcquireStateContext A follows 0 REG_NOERROR dfa
  if plain = 0 ∧ err ≠ REG_NOERROR then some (dfa, none)
  else do
    let st ← dfa.mem.heap.get plain
    if !st.hasConstraint then some (dfa, some ⟨ch, plain, plain, plain⟩)
    else do
      let (dfa, word, err) ← reAcquireStateContext A follows CONTEXT_WORD err dfa
      if word = 0 ∧ err ≠ REG_NOERROR then some (dfa, none)
      else do
        let (dfa, nl, err) ← reAcquireStateContext A follows CONTEXT_NEWLINE err dfa
        if nl = 0 ∧ err ≠ REG_NOERROR then some (dfa, none)
        else some (dfa, some ⟨ch, plain, word, nl⟩)

/-- A node set, as the states have it. -/
def nodeList (set : ReNodeSet) : List Nat := set.members.map Int.toNat

/-- The nodes of a state, as a node set. -/
def nodeSet (nodes : List Nat) : ReNodeSet :=
  ⟨nodes.length, nodes.length, nodes.map fun (node : Nat) => some (node : Int)⟩

variable (okGroup okFollow : Nat → Bool)

/-- The loop that builds the states for all destinations. -/
def destLoop (nfa : Nfa) :
    List Dest → Follows → Regex.Dfa → Option (Regex.Dfa × Option (List DestStates))
  | [], _, dfa => some (dfa, some [])
  | dest :: dests, s, dfa => do
    let s ← (List.range dest.node.nelem.toNat).foldlM (followPass okFollow nfa dest.node)
      { s with set := { s.set with nelem := 0 } }
    if s.err ≠ REG_NOERROR then some (dfa, none)
    else do
      let (dfa, states) ← acquireDest A (nodeList s.set) dest.ch dfa
      match states with
      | none => some (dfa, none)
      | some states => do
        let (dfa, rest) ← destLoop nfa dests s dfa
        some (dfa, rest.map fun rest => states :: rest)

/-- `trtable[ch]`: the state for the character of the first destination that accepts it. -/
def tableEntry (wordChar : Bitset) (dests : List DestStates) (ch : UInt8) : Nat :=
  match dests.find? fun d => bitsetContain d.ch ch.toNat with
  | none => 0
  | some d =>
    if ch.toNat = NEWLINE_CHAR then d.nl
    else if bitsetContain wordChar ch.toNat then d.word else d.plain

/-- `trtable = state->trtable = calloc (…)`, with the entries that come into it. -/
def Machine.setTable (m : Machine) (state : Nat) (entries : UInt8 → Nat) : Machine × Bool :=
  let (mem, ok) := allocate A m.dfa.mem
  let m := { m with dfa := { m.dfa with mem := mem } }
  if ok then ({ m with trtable := Function.update m.trtable state (some entries) }, true)
  else (m, false)

variable (loc : Regcomp.Locale) (syn : RegSyntax) (c : Compiled)

/-- `build_trtable`. -/
def buildTrtable (m : Machine) (state : Nat) : Option (Machine × Bool) := do
  let st ← m.dfa.mem.heap.get state
  let dfa := c.dfa loc syn
  match ← groupNodesIntoDFAstates dfa okGroup (nodeSet st.nodes) with
  | .error .overflow => none
  | .error .failed => some (m, false)
  | .ok [] => some (m.setTable A state fun _ => 0)
  | .ok dests =>
    let (follows, err) := reNodeSetAlloc (okFollow 0) (dests.length + 1)
    if err ≠ REG_NOERROR then some (m, false)
    else do
      let (table, states) ← destLoop A okFollow c.nfa dests ⟨follows, 1, REG_NOERROR⟩ m.dfa
      match states with
      | none => some ({ m with dfa := table }, false)
      | some states =>
        some ({ m with dfa := table }.setTable A state (tableEntry dfa.wordChar states))

/-! ## transit_state -/

/-- `transit_state`: the next state, with `*err`. -/
def transitState (m : Machine) (s : ReString) (state : Nat) :
    Option (Machine × ReString × Nat × RegErrcode) := do
  let (ch, s) ← s.fetchByte
  match m.trtable state with
  | some trtable => some (m, s, trtable ch, REG_NOERROR)
  | none => do
    let (m, built) ← buildTrtable A okGroup okFollow loc syn c m state
    if !built then some (m, s, 0, REG_ESPACE)
    else do
      let trtable ← m.trtable state
      some (m, s, trtable ch, REG_NOERROR)

/-! ## check_matching -/

/-- The initial states. -/
structure InitStates where
  plain : Nat
  word : Nat
  nl : Nat
  begbuf : Nat

/-- `acquire_init_state_context`, at the start of the string. -/
def acquireInitStateContext (init : InitStates) (m : Machine) (s : ReString) :
    Option (Machine × Nat) := do
  let st ← m.dfa.mem.heap.get init.plain
  if !st.hasConstraint then some (m, init.plain)
  else do
    let context ← s.contextAt src (-1)
    if context &&& CONTEXT_WORD ≠ 0 then some (m, init.word)
    else if context = 0 then some (m, init.plain)
    else if context &&& CONTEXT_BEGBUF ≠ 0 ∧ context &&& CONTEXT_NEWLINE ≠ 0 then
      some (m, init.begbuf)
    else if context &&& CONTEXT_NEWLINE ≠ 0 then some (m, init.nl)
    else if context &&& CONTEXT_BEGBUF ≠ 0 then do
      -- it is relatively rare case, then calculate on demand
      let (dfa, state, _) ← reAcquireStateContext A st.entrance context REG_NOERROR m.dfa
      some ({ m with dfa := dfa }, state)
    else some (m, init.plain)

/-- `NOT_SATISFY_NEXT_CONSTRAINT (constraint, context)`. -/
def notSatisfyNextConstraint (constraint context : Nat) : Bool :=
  (constraint &&& Grouping.NEXT_WORD_CONSTRAINT ≠ 0 && context &&& CONTEXT_WORD = 0) ||
  (constraint &&& Grouping.NEXT_NOTWORD_CONSTRAINT ≠ 0 && context &&& CONTEXT_WORD ≠ 0) ||
  (constraint &&& Grouping.NEXT_NEWLINE_CONSTRAINT ≠ 0 && context &&& CONTEXT_NEWLINE = 0) ||
  (constraint &&& Grouping.NEXT_ENDBUF_CONSTRAINT ≠ 0 && context &&& CONTEXT_ENDBUF = 0)

/-- `check_halt_node_context`. -/
def checkHaltNodeContext (nodes : List Regex.Token) (node context : Nat) : Option Bool :=
  nodes[node]?.map fun token =>
    token.type = .endOfRe && !(token.constraint ≠ 0 && notSatisfyNextConstraint token.constraint
      context)

/-- The loop of `check_halt_state_context`: the node that halts, or 0. -/
def haltNode (nodes : List Regex.Token) (context : Nat) : List Nat → Option Nat
  | [] => some 0
  | node :: rest => do
    if ← checkHaltNodeContext nodes node context then some node else haltNode nodes context rest

def checkHaltStateContext (m : Machine) (s : ReString) (st : DfaState) : Option Nat := do
  haltNode m.dfa.nodes (← s.contextAt src s.curIdx) st.nodes

/-- The state is a halt state, and can satisfy the current context. -/
def halts (m : Machine) (s : ReString) (state : Nat) : Option Bool := do
  let st ← m.dfa.mem.heap.get state
  if !st.halt then some false
  else if !st.hasConstraint then some true
  else do some ((← checkHaltStateContext src m s st) ≠ 0)

/-- The variables of `check_matching`; `skips` says that `p_match_first` is not null. -/
structure Matching where
  machine : Machine
  input : ReString
  curState : Nat
  found : Bool
  matchLast : Int
  atInitState : Bool
  nextStartIdx : Nat
  skips : Bool

/-- What it leaves: `matchLast` is its result, and `advance` what it adds to `*p_match_first`. -/
structure Matched where
  machine : Machine
  input : ReString
  matchLast : Int
  advance : Nat

/-- The end of `check_matching`. -/
def Matching.finish (s : Matching) : Matched :=
  ⟨s.machine, s.input, s.matchLast, if s.skips then s.nextStartIdx else 0⟩

/-- `return -2;` -/
def Matching.failed (s : Matching) : Matched := ⟨s.machine, s.input, -2, 0⟩

/-- The buffers are extended if they have run out. -/
def roomFor (s : ReString) : ReString × RegErrcode :=
  let nextCharIdx := s.curIdx + 1
  if (s.bufsLen ≤ nextCharIdx ∧ s.bufsLen < s.len) ∨
      (s.mbs.length ≤ nextCharIdx ∧ s.mbs.length < s.len) then
    extendBuffers src s (nextCharIdx + 1)
  else (s, REG_NOERROR)

/-- Behind the transition. -/
def Matching.arrive (longest : Bool) (s : Matching) (m : Machine) (input : ReString)
    (curState : Nat) : Option (Matching ⊕ Matched) := do
  let stays := s.atInitState && s.curState = curState
  let s := { s with
    machine := m
    input := input
    curState := curState
    atInitState := stays
    nextStartIdx := if stays then s.input.curIdx + 1 else s.nextStartIdx }
  if ← halts src m input curState then
    -- we found a match, do not modify `match_first`
    let s := { s with found := true, matchLast := input.curIdx, skips := false }
    if !longest then some (.inr s.finish) else some (.inl s)
  else some (.inl s)

/-- One pass of the loop. -/
def matchPass (longest : Bool) (s : Matching) : Option (Matching ⊕ Matched) :=
  if s.input.eoi then some (.inr s.finish)
  else
    let (input, err) := roomFor src s.input
    let s := { s with input := input }
    if err ≠ REG_NOERROR then some (.inr s.failed)
    else do
      let (m, input, curState, err) ←
        transitState A okGroup okFollow loc syn c s.machine s.input s.curState
      if curState = 0 then
        let s := { s with machine := m, input := input }
        some (.inr (if err ≠ REG_NOERROR then s.failed else s.finish))
      else s.arrive src longest m input curState

/-- `check_matching`, at the start of the string; with `skips` the caller gets `advance`. -/
def checkMatching (init : InitStates) (longest skips : Bool) (m : Machine) (input : ReString) :
    Option Matched := do
  let (m, curState) ← acquireInitStateContext src A init m input
  if curState = 0 then some ⟨m, input, -2, 0⟩
  else do
    let empty ← halts src m input curState
    -- the RE accepts the null string
    if empty && !longest then some ⟨m, input, input.curIdx, 0⟩
    else
      let s : Matching := {
        machine := m
        input := input
        curState := curState
        found := empty
        matchLast := if empty then input.curIdx else -1
        atInitState := skips
        nextStartIdx := input.curIdx
        skips := skips }
      tryLoop (matchPass src A okGroup okFollow loc syn c longest)
        ((input.stop - input.curIdx).toNat + 1) s

end Librecompat.Regexec
