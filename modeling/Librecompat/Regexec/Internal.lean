/-
  The calls of src/regex/regcomp.c and src/regex/regexec.c around the matcher: the initial states
  and the fastmap, `re_search_internal`, `compat_regcomp` and `compat_regexec`.

  As in `Regexec.Model` the locale is a single-byte one, and a search that logs its states is `none`:
  that for a pattern with back references, and one for the groups of a match. `Preg` is what is read
  of `regex_t`. Where `compile` looks whether its last allocation succeeds, the states are allocated
  here, by the allocator of the states.
-/
import Librecompat.Regexec.Model
import Mathlib.Data.Nat.Size

namespace Librecompat.Regexec

open Librecompat.Lib Librecompat.NodeSet Librecompat.Regcomp
open Librecompat.Regex

def REG_BADPAT : RegErrcode := 2

def REG_EXTENDED : Nat := 1
def REG_ICASE : Nat := 2
def REG_NEWLINE : Nat := 4
def REG_NOSUB : Nat := 8

def REG_STARTEND : Nat := 4

def RE_SYNTAX_POSIX_COMMON : RegSyntax :=
  RE_CHAR_CLASSES ||| RE_DOT_NEWLINE ||| RE_DOT_NOT_NULL ||| RE_INTERVALS ||| RE_NO_EMPTY_RANGES

def RE_SYNTAX_POSIX_BASIC : RegSyntax :=
  RE_SYNTAX_POSIX_COMMON ||| RE_BK_PLUS_QM ||| RE_CONTEXT_INVALID_DUP

def RE_SYNTAX_POSIX_EXTENDED : RegSyntax :=
  RE_SYNTAX_POSIX_COMMON ||| RE_CONTEXT_INDEP_ANCHORS ||| RE_CONTEXT_INDEP_OPS |||
    RE_NO_BK_BRACES ||| RE_NO_BK_PARENS ||| RE_NO_BK_VBAR ||| RE_CONTEXT_INVALID_OPS |||
    RE_UNMATCHED_RIGHT_PAREN_ORD

variable (A : Allocator DfaState)

/-! ## create_initial_state -/

/-- The nodes, as the states see them. -/
def regexNodes (c : Compiled) : List Regex.Token :=
  c.nfa.graph.nodes.map fun node => ⟨node.type, node.constraint, node.type = .complexBracket⟩

/-- The table of `init_dfa`: its size is the first power of two above the length of the pattern. -/
def initDfa (c : Compiled) (patLen : Nat) : Regex.Dfa where
  nodes := regexNodes c
  stateTable := List.replicate (2 ^ patLen.size) ⟨0, []⟩
  stateHashMask := 2 ^ patLen.size - 1
  mem := ⟨Heap.empty, 0⟩

/-- The end of `create_initial_state`: the states of the initial nodes for all contexts. -/
def acquireInitStates (initNodes : List Nat) (dfa : Regex.Dfa) :
    Option (Regex.Dfa × Except RegErrcode InitStates) := do
  let (dfa, plain, err) ← reAcquireStateContext A initNodes 0 REG_NOERROR dfa
  if plain = 0 then some (dfa, .error err)
  else do
    let st ← dfa.mem.heap.get plain
    if st.hasConstraint then do
      let (dfa, word, err) ← reAcquireStateContext A initNodes CONTEXT_WORD err dfa
      let (dfa, nl, err) ← reAcquireStateContext A initNodes CONTEXT_NEWLINE err dfa
      let (dfa, begbuf, err) ←
        reAcquireStateContext A initNodes (CONTEXT_NEWLINE ||| CONTEXT_BEGBUF) err dfa
      if word = 0 ∨ nl = 0 ∨ begbuf = 0 then some (dfa, .error err)
      else some (dfa, .ok ⟨plain, word, nl, begbuf⟩)
    else some (dfa, .ok ⟨plain, plain, plain, plain⟩)

/-! ## re_compile_fastmap -/

structure Fastmap where
  map : UInt8 → Bool
  canBeNull : Bool

/-- `re_set_fastmap`. -/
def reSetFastmap (tolower : UInt8 → UInt8) (icase : Bool) (fastmap : UInt8 → Bool) (ch : UInt8) :
    UInt8 → Bool :=
  let fastmap := Function.update fastmap ch true
  if icase then Function.update fastmap (tolower ch) true else fastmap

variable (tolower : UInt8 → UInt8) (icase : Bool)

/-- The loop over the characters of a bracket. -/
def setBracket (set : Bitset) (chars : List Nat) (fastmap : UInt8 → Bool) : UInt8 → Bool :=
  chars.foldl (fun fastmap ch =>
    if bitsetContain set ch then reSetFastmap tolower icase fastmap (UInt8.ofNat ch)
    else fastmap) fastmap

/-- The characters of a node, unless these are all. -/
def fastmapNode (node : Grouping.Token) (fastmap : UInt8 → Bool) : UInt8 → Bool :=
  match node.type with
  | .character => reSetFastmap tolower icase fastmap (UInt8.ofFin node.c)
  | .simpleBracket => setBracket tolower icase node.sbcset (List.range SBC_MAX) fastmap
  | _ => fastmap

/-- `re_compile_fastmap_iter`, for the nodes of an initial state. -/
def reCompileFastmapIter (nodes : List Grouping.Token) : List Nat → Fastmap → Option Fastmap
  | [], s => some s
  | node :: rest, s => do
    let token ← nodes[node]?
    if token.type = .opPeriod ∨ token.type = .opUtf8Period ∨ token.type = .endOfRe then
      some ⟨fun _ => true, s.canBeNull || token.type = .endOfRe⟩
    else
      reCompileFastmapIter nodes rest { s with map := fastmapNode tolower icase token s.map }

/-- `re_compile_fastmap_iter (bufp, init_state, fastmap)`. -/
def fastmapState (nodes : List Grouping.Token) (heap : Heap DfaState) (initState : Nat)
    (s : Fastmap) : Option Fastmap := do
  reCompileFastmapIter tolower icase nodes (← heap.get initState).nodes s

/-- `if (dfa->init_state != other) re_compile_fastmap_iter (bufp, other, fastmap);` -/
def fastmapOther (nodes : List Grouping.Token) (heap : Heap DfaState) (initState other : Nat)
    (s : Fastmap) : Option Fastmap :=
  if initState ≠ other then fastmapState tolower icase nodes heap other s else some s

/-- `re_compile_fastmap`. -/
def reCompileFastmap (nodes : List Grouping.Token) (heap : Heap DfaState) (init : InitStates) :
    Option Fastmap := do
  let s ← fastmapState tolower icase nodes heap init.plain ⟨fun _ => false, false⟩
  let s ← fastmapOther tolower icase nodes heap init.plain init.word s
  let s ← fastmapOther tolower icase nodes heap init.plain init.nl s
  fastmapOther tolower icase nodes heap init.plain init.begbuf s

/-! ## re_search_internal -/

/-- `regex_t`, with the initial states of its automaton. -/
structure Preg where
  compiled : Compiled
  init : InitStates
  syn : RegSyntax
  translate : Option (UInt8 → UInt8)
  fastmap : Option (UInt8 → Bool)
  fastmapAccurate : Bool
  canBeNull : Bool
  newlineAnchor : Bool
  noSub : Bool

variable (loc : Regcomp.Locale) (okBuf : Int → Bool)

/-- The string that is searched. -/
def Preg.source (preg : Preg) (string : List UInt8) (stop : Int) (eflags : Nat) : Source where
  rawMbs := string
  rawStop := stop
  trans := preg.translate
  icase := preg.syn.has RE_ICASE
  newlineAnchor := preg.newlineAnchor
  wordChar := (preg.compiled.dfa loc preg.syn).wordChar
  eflags := eflags
  toupper := loc.toupper
  okBuf := okBuf

variable (src : Source) (preg : Preg)

/-- `match_first >= length ? 0 : (unsigned char) string[match_first]`. -/
def Source.firstByte (matchFirst : Int) : Option UInt8 :=
  if (src.rawMbs.length : Int) ≤ matchFirst then some 0 else getAt src.rawMbs matchFirst

/-- `fastmap[t ? t[ch] : ch]`. -/
def Source.mayStart (fastmap : UInt8 → Bool) (ch : UInt8) : Bool := fastmap (src.translate ch)

/-- The loop of the cases 6 and 7. -/
def skipForwardPass (fastmap : UInt8 → Bool) (rightLim matchFirst : Int) : Option (Int ⊕ Int) :=
  if matchFirst < rightLim then do
    let ch ← getAt src.rawMbs matchFirst
    some (if !src.mayStart fastmap ch then .inl (matchFirst + 1) else .inr matchFirst)
  else some (.inr matchFirst)

/-- The cases 6 and 7: the next plausible start, unless there is none. -/
def skipForward (fastmap : UInt8 → Bool) (rightLim matchFirst : Int) : Option (Option Int) := do
  let matchFirst ← tryLoop (skipForwardPass src fastmap rightLim)
    ((rightLim - matchFirst).toNat + 1) matchFirst
  if matchFirst = rightLim then do
    let ch ← src.firstByte matchFirst
    some (if !src.mayStart fastmap ch then none else some matchFirst)
  else some (some matchFirst)

/-- The loop of the cases 4 and 5. -/
def skipBackwardPass (fastmap : UInt8 → Bool) (leftLim matchFirst : Int) : Option (Int ⊕ Int) :=
  if leftLim ≤ matchFirst then do
    let ch ← src.firstByte matchFirst
    some (if src.mayStart fastmap ch then .inr matchFirst else .inl (matchFirst - 1))
  else some (.inr matchFirst)

/-- The cases 4 and 5. -/
def skipBackward (fastmap : UInt8 → Bool) (leftLim matchFirst : Int) : Option (Option Int) := do
  let matchFirst ← tryLoop (skipBackwardPass src fastmap leftLim)
    ((matchFirst - leftLim).toNat + 2) matchFirst
  some (if matchFirst < leftLim then none else some matchFirst)

/-- The next plausible start, if there is a fastmap. -/
def nextStart (fastmap : Option (UInt8 → Bool)) (forward : Bool) (leftLim rightLim : Int)
    (matchFirst : Int) : Option (Option Int) :=
  match fastmap with
  | none => some (some matchFirst)
  | some fastmap =>
    if forward then skipForward src fastmap rightLim matchFirst
    else skipBackward src fastmap leftLim matchFirst

/-- The variables of the loop, with what is kept of `dfa`. -/
structure Search where
  machine : Machine
  input : ReString
  matchFirst : Int

/-- What it leaves: the error, and `match_first` with `mctx.match_last` if there is none. -/
structure Searched where
  machine : Machine
  err : RegErrcode
  found : Option (Int × Int)

variable (okGroup okFollow : Nat → Bool)

/-- One pass of the loop over `match_first`; `forward` says that `start <= last_start`. -/
def searchPass (fastmap : Option (UInt8 → Bool)) (longest forward : Bool) (leftLim rightLim : Int)
    (s : Search) : Option (Search ⊕ Searched) :=
  let incr : Int := if forward then 1 else -1
  if s.matchFirst < leftLim ∨ rightLim < s.matchFirst then
    some (.inr ⟨s.machine, REG_NOMATCH, none⟩)
  else do
    match ← nextStart src fastmap forward leftLim rightLim s.matchFirst with
    | none => some (.inr ⟨s.machine, REG_NOMATCH, none⟩)
    | some first => do
      let input ← reStringReconstruct src s.input first.toNat
      let r ← checkMatching src A okGroup okFollow loc preg.syn preg.compiled preg.init longest
        forward s.machine input
      let first := first + r.advance
      if r.matchLast = -1 then some (.inl ⟨r.machine, r.input, first + incr⟩)
      else if r.matchLast = -2 then some (.inr ⟨r.machine, REG_ESPACE, none⟩)
      else some (.inr ⟨r.machine, REG_NOERROR, some (first, r.matchLast)⟩)

/-- An initial state has no nodes. -/
def isEmptyState (heap : Heap DfaState) (state : Nat) : Option Bool :=
  (heap.get state).map fun st => st.nodes = []

/-- The initial states with other contexts than that of the buffer's start have no nodes. -/
def isAnchored (heap : Heap DfaState) : Option Bool := do
  if ← isEmptyState heap preg.init.plain then
    if ← isEmptyState heap preg.init.word then
      if ← isEmptyState heap preg.init.nl then some true
      else some (!preg.newlineAnchor)
    else some false
  else some false

/-- `pmatch[0]` for the match, with the elements behind it that are no subexpressions. -/
def pmatchOf (found : Option (Int × Int)) (nmatch extra : Nat) : List (Int × Int) :=
  match found with
  | none => []
  | some (first, last) =>
    if nmatch = 0 then []
    else (first, last + first) :: List.replicate extra (-1, -1)

/-- `re_search_internal` behind its checks. -/
def searchFrom (fastmap : Option (UInt8 → Bool)) (m : Machine) (start lastStart : Int)
    (nmatch extra : Nat) : Option (Machine × RegErrcode × List (Int × Int)) :=
  let (input, err) := reStringAllocate src preg.compiled.nfa.graph.nodes.length
  if err ≠ REG_NOERROR then some (m, err, [])
  else do
    let leftLim := min start lastStart
    let rightLim := max start lastStart
    let r ← tryLoop (searchPass A loc src preg okGroup okFollow fastmap (nmatch ≠ 0)
      (start ≤ lastStart) leftLim rightLim) ((rightLim - leftLim).toNat + 2) ⟨m, input, start⟩
    some (r.machine, r.err, pmatchOf r.found nmatch extra)

/-- The states are logged: for groups, or with `has_mb_node`, which in a single-byte locale is set
    by back references only. -/
def logsStates (nmatch : Nat) : Bool := 1 < nmatch || preg.compiled.nbackref ≠ 0

/-- `re_search_internal`, with the elements of `pmatch` that it writes. -/
def reSearchInternal (m : Machine) (start lastStart : Int) (nmatch : Nat) :
    Option (Machine × RegErrcode × List (Int × Int)) :=
  let fastmap :=
    if preg.fastmapAccurate ∧ start ≠ lastStart ∧ !preg.canBeNull then preg.fastmap else none
  let reNsub := preg.compiled.nfa.reNsub
  let extra := if nmatch > reNsub then nmatch - (reNsub + 1) else 0
  let nmatch := nmatch - extra
  if logsStates preg nmatch then none
  else if preg.init.plain = 0 ∨ preg.init.word = 0 ∨ preg.init.nl = 0 ∨ preg.init.begbuf = 0 then
    some (m, REG_NOMATCH, [])
  else do
    if ← isAnchored preg m.dfa.mem.heap then
      if start ≠ 0 ∧ lastStart ≠ 0 then some (m, REG_NOMATCH, [])
      else searchFrom A loc src preg okGroup okFollow fastmap m 0 0 nmatch extra
    else searchFrom A loc src preg okGroup okFollow fastmap m start lastStart nmatch extra

/-! ## compat_regcomp, compat_regexec -/

/-- The syntax that `compat_regcomp` compiles with. -/
def regcompSyntax (cflags : Nat) : RegSyntax :=
  let syn := if cflags &&& REG_EXTENDED ≠ 0 then RE_SYNTAX_POSIX_EXTENDED
    else RE_SYNTAX_POSIX_BASIC
  let syn := if cflags &&& REG_ICASE ≠ 0 then syn ||| RE_ICASE else syn
  if cflags &&& REG_NEWLINE ≠ 0 then (syn - (syn &&& RE_DOT_NEWLINE)) ||| RE_HAT_LISTS_NOT_NEWLINE
  else syn

variable (ok okSet okTree : Nat → Bool) (fresh : Nat → Int) (fuel : Nat)

/-- `re_compile_internal`. -/
def reCompileInternal (translate : Option (UInt8 → UInt8)) (syn : RegSyntax) (noSub : Bool)
    (pattern : List UInt8) : Option (Except RegErrcode (Compiled × Regex.Dfa × InitStates)) := do
  match ← compile ok loc translate okSet okTree fresh syn noSub fuel pattern with
  | .error err => some (.error err)
  | .ok c => do
    let (dfa, init) ← acquireInitStates A (nodeList c.initNodes) (initDfa c pattern.length)
    some (init.map fun init => (c, dfa, init))

/-- `compat_regcomp`. -/
def compatRegcomp (okFastmap : Bool) (pattern : List UInt8) (cflags : Nat) :
    Option (Except RegErrcode (Preg × Machine)) :=
  if !okFastmap then some (.error REG_ESPACE)
  else do
    let syn := regcompSyntax cflags
    let noSub := cflags &&& REG_NOSUB ≠ 0
    match ← reCompileInternal A loc ok okSet okTree fresh fuel none syn noSub pattern with
    | .error err => some (.error (if err = REG_ERPAREN then REG_EPAREN else err))
    | .ok (c, dfa, init) => do
      let fastmap ← reCompileFastmap tolower (syn.has RE_ICASE) (c.dfa loc syn).nodes dfa.mem.heap
        init
      some (.ok ({
        compiled := c
        init := init
        syn := syn
        translate := none
        fastmap := some fastmap.map
        fastmapAccurate := true
        canBeNull := fastmap.canBeNull
        newlineAnchor := cflags &&& REG_NEWLINE ≠ 0
        noSub := noSub }, ⟨dfa, fun _ => none⟩))

/-- `compat_regexec`, with `nmatch` and `pmatch[0]` for `REG_STARTEND`. -/
def compatRegexec (m : Machine) (string : List UInt8) (nmatch : Nat) (pmatch : Int × Int)
    (eflags : Nat) : Option (Machine × RegErrcode × List (Int × Int)) :=
  if eflags - (eflags &&& (REG_NOTBOL ||| REG_NOTEOL ||| REG_STARTEND)) ≠ 0 then
    some (m, REG_BADPAT, [])
  else do
    let (start, length) := if eflags &&& REG_STARTEND ≠ 0 then pmatch
      else (0, (cstr string).length)
    let src := preg.source loc okBuf (string.take length.toNat) length eflags
    let (m, err, pmatch) ← reSearchInternal A loc src preg okGroup okFollow m start length
      (if preg.noSub then 0 else nmatch)
    some (m, if err ≠ REG_NOERROR then 1 else 0, pmatch)

end Librecompat.Regexec
