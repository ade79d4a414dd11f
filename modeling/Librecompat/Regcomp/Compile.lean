/-
  `re_compile_internal` in src/regex/regcomp.c for a single-byte locale: parsing, analysis and the
  initial states.

  The automaton that `regexec.c` gets is `Compiled.dfa`. The `word_char` bit of a token is what
  `peek_token` has made of its byte, `isalnum` or the underscore.
-/
import Librecompat.Grouping.Model
import Librecompat.Regcomp.Analyze
import Librecompat.Regcomp.Reader

namespace Librecompat.Regcomp

open Librecompat.Lib Librecompat.NodeSet
open Librecompat.Regex (RegErrcode REG_NOERROR REG_ESPACE SBC_MAX Bitset bitsetEmpty bitsetSet
  CONTEXT_WORD CONTEXT_NEWLINE CONTEXT_BEGBUF notSatisfyPrevConstraint)

def RE_DOT_NEWLINE : RegSyntax := 0x40
def RE_DOT_NOT_NULL : RegSyntax := 0x80

variable (ok : Nat → Bool)

/-! ## create_initial_state -/

/-- The variables of its loop over the back references. -/
structure Initial where
  nodes : ReNodeSet
  i : Nat
  calls : Nat

/-- The set has an `OP_CLOSE_SUBEXP` of the group. -/
def hasClose (nfa : Nfa) (nodes : ReNodeSet) (opr : Nat) : Option Bool :=
  (List.range nodes.nelem.toNat).anyM fun clexpIdx => do
    let idx ← readCell nodes.elems clexpIdx
    let node ← getAt nfa.graph.nodes idx
    some (node.type = .opCloseSubexp && (← getAt nfa.oprs idx) = opr)

/-- One pass of the loop: a back reference whose group can be empty is passed. -/
def initialPass (nfa : Nfa) (s : Initial) : Option (Initial ⊕ (Initial × RegErrcode)) :=
  if s.nodes.nelem ≤ s.i then some (.inr (s, REG_NOERROR))
  else do
    let nodeIdx ← readCell s.nodes.elems s.i
    let node ← getAt nfa.graph.nodes nodeIdx
    let opr ← getAt nfa.oprs nodeIdx
    if node.type ≠ .opBackRef then some (.inl { s with i := s.i + 1 })
    else if !(← hasClose nfa s.nodes opr) then some (.inl { s with i := s.i + 1 })
    else do
      let destIdx ← readCell (← getAt nfa.graph.edests nodeIdx).elems 0
      if (← reNodeSetContains s.nodes destIdx) ≠ 0 then some (.inl { s with i := s.i + 1 })
      else do
        let dest ← getAt nfa.graph.eclosures destIdx
        let (nodes, err) ← reNodeSetMerge (ok s.calls) s.nodes (some dest)
        -- `i = 0`, and then the increment of the loop
        let s := ⟨nodes, 1, s.calls + 1⟩
        if err ≠ REG_NOERROR then some (.inr (s, err)) else some (.inl s)

/-- The pass of `create_cd_newstate` for the node in the cell `i`: the node is taken out where its
    constraint forbids the context; `nctx` nodes are out already. -/
def contextPass (nfa : Nfa) (nodes : ReNodeSet) (context : Nat) (s : ReNodeSet × Nat) (i : Nat) :
    Option (ReNodeSet × Nat) := do
  let idx ← readCell nodes.elems i
  let node ← getAt nfa.graph.nodes idx
  if node.constraint ≠ 0 ∧ notSatisfyPrevConstraint node.constraint context then do
    some (← reNodeSetRemoveAt s.1 ((i : Int) - (s.2 : Int)), s.2 + 1)
  else some s

/-- The nodes of the state that `create_cd_newstate` makes of a set of nodes. -/
def contextNodes (nfa : Nfa) (nodes : ReNodeSet) (context : Nat) : Option ReNodeSet := do
  let s ← (List.range nodes.nelem.toNat).foldlM (contextPass nfa nodes context) (nodes, 0)
  some s.1

/-- The contexts for which there is an initial state of its own. -/
def initialContexts (nfa : Nfa) (nodes : ReNodeSet) : Option (List Nat) := do
  let hasConstraint ← (List.range nodes.nelem.toNat).anyM fun i => do
    let idx ← readCell nodes.elems i
    some ((← getAt nfa.graph.nodes idx).constraint ≠ 0)
  some (if hasConstraint then [0, CONTEXT_WORD, CONTEXT_NEWLINE, CONTEXT_NEWLINE ||| CONTEXT_BEGBUF]
    else [0])

/-- `create_initial_state`: the initial nodes, and those of them that each initial state has. -/
def createInitialState (fuel root : Nat) (nfa : Nfa) :
    Option (Except RegErrcode (ReNodeSet × List ReNodeSet)) := do
  let first ← nfa.first root
  let eclosure ← getAt nfa.graph.eclosures (nfa.nodeIdx first)
  let (nodes, err) ← reNodeSetInitCopy (ok nfa.graph.calls) eclosure
  if err ≠ REG_NOERROR then some (.error err)
  else do
    let (s, err) ← tryLoop (initialPass ok nfa) fuel ⟨nodes, 0, nfa.graph.calls + 1⟩
    if err ≠ REG_NOERROR then some (.error err)
    else if !ok s.calls then some (.error REG_ESPACE)
    else do
      let contexts ← initialContexts nfa s.nodes
      some (.ok (s.nodes, ← contexts.mapM (contextNodes nfa s.nodes)))

/-! ## re_compile_internal -/

structure Compiled where
  nfa : Nfa
  nbackref : Nat
  wordOpsUsed : Bool
  initNodes : ReNodeSet
  initStates : List ReNodeSet

/-- What `parse` leaves for `analyze`. -/
def State.nfa {σ : Type} (s : State σ) (noSub : Bool) : Nfa where
  tree := s.dfa
  first := fun _ => none
  next := fun _ => none
  nodeIdx := fun _ => -1
  graph := ⟨[], [], [], [], 0⟩
  oprs := []
  nexts := []
  orgIndices := []
  subexpMap := none
  usedBkrefMap := s.usedBkrefMap
  reNsub := s.reNsub
  noSub := noSub

variable (loc : Locale)

/-- `re_compile_internal`. -/
def compile (trans : Option (UInt8 → UInt8)) (okSet okTree : Nat → Bool) (fresh : Nat → Int)
    (syn : RegSyntax) (noSub : Bool) (fuel : Nat) (pattern : List UInt8) :
    Option (Except RegErrcode Compiled) := do
  let (s, tree) ← parse (singleByte loc trans okTree okSet syn) okTree syn fuel
    (construct loc trans syn pattern)
  match tree with
  | none => some (.error s.err)
  | some root => do
    let (nfa, err) ← analyze okTree ok fresh fuel root (s.nfa noSub)
    if err ≠ REG_NOERROR then some (.error err)
    else do
      match ← createInitialState ok fuel root nfa with
      | .error err => some (.error err)
      | .ok (nodes, states) => some (.ok ⟨nfa, s.nbackref, s.wordOpsUsed, nodes, states⟩)

/-! ## The automaton -/

/-- `IS_WORD_CHAR (ch)`. -/
def Locale.isWordChar (ch : UInt8) : Bool := loc.ctype .isalnum ch || ch = 0x5f

/-- The table that `init_word_char` writes for the ASCII characters. -/
def asciiWords : Bitset :=
  BitVec.ofNat SBC_MAX (0x07fffffe87fffffe <<< 64 ||| 0x03ff000000000000)

/-- `init_word_char`. -/
def wordChars : Bitset :=
  (List.range' 128 128).foldl (fun set ch =>
    if loc.isWordChar (UInt8.ofNat ch) then bitsetSet set ch else set) asciiWords

/-- A node, as `regexec.c` reads it. -/
def groupingToken (node : Eclosure.Token) (opr : Nat) : Grouping.Token where
  type := node.type
  c := (UInt8.ofNat opr).toFin
  sbcset := BitVec.ofNat SBC_MAX opr
  constraint := node.constraint
  wordChar := loc.isWordChar (UInt8.ofNat opr)

/-- The automaton. -/
def Compiled.dfa (syn : RegSyntax) (c : Compiled) : Grouping.Dfa where
  nodes := List.zipWith (groupingToken loc) c.nfa.graph.nodes c.nfa.oprs
  dotNewline := syn.has RE_DOT_NEWLINE
  dotNotNull := syn.has RE_DOT_NOT_NULL
  mbCurMax := 1
  wordChar := if c.wordOpsUsed then wordChars loc else bitsetEmpty
  sbChar := bitsetEmpty

end Librecompat.Regcomp
