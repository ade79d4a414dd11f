/-
  Repetition operators in src/regex/regcomp.c: `parse_dup_op` and the functions on binary trees
  that it uses.

  `trees` has the tree nodes in the order in which they were made: a pointer to a node is its
  index, a null pointer is `none`. The nodes come in chunks of `BIN_TREE_STORAGE_SIZE`; `ok k`
  says whether the `k`-th chunk can be allocated. `regexp` is the list of the tokens that the rest
  of the string has under the syntax of the call. `none` means that a call follows a null pointer
  or a pointer to no node, or that the fuel does not suffice: it bounds the passes of the two walks
  over trees, `duplicate_tree` and `postorder`. Their nested loops are one loop each, with the
  heads of the two loops as its states.
-/
import Librecompat.Regex.Model
import Librecompat.Lib.Loop

namespace Librecompat.RegTree

open Librecompat.Lib
open Librecompat.Regex (RegErrcode REG_NOERROR REG_ESPACE)

def REG_EBRACE : RegErrcode := 9
def REG_BADBR : RegErrcode := 10
def REG_ESIZE : RegErrcode := 15

def RE_DUP_MAX : Int := 0x7fff

/-- `(1024 - sizeof (void *)) / sizeof (bin_tree_t)` with pointers of 8 bytes. -/
def BIN_TREE_STORAGE_SIZE : Nat := 15

/-- `re_token_type_t`. -/
inductive TokenType where
  | nonType | character | endOfRe | simpleBracket | opBackRef | opPeriod | complexBracket
  | opUtf8Period | opOpenSubexp | opCloseSubexp | opAlt | opDupAsterisk | anchor | concat | subexp
  | opDupPlus | opDupQuestion | opOpenBracket | opCloseBracket | opCharsetRange | opOpenDupNum
  | opCloseDupNum | opNonMatchList | opOpenCollElem | opCloseCollElem | opOpenEquivClass
  | opCloseEquivClass | opOpenCharClass | opCloseCharClass | opWord | opNotword | opSpace
  | opNotspace | backSlash
  deriving DecidableEq

/-- `re_token_t`; the union `opr` is a number, `opr.c` its lowest byte. -/
structure Token where
  type : TokenType
  opr : Nat := 0
  duplicated : Bool := false
  optSubexp : Bool := false
  deriving DecidableEq

def Token.c (token : Token) : Nat := token.opr % 256

/-- `bin_tree_t`. -/
structure BinTree where
  parent : Option Nat
  left : Option Nat
  right : Option Nat
  token : Token
  deriving DecidableEq

/-- `re_dfa_t`; `chunks` counts the allocations of chunks, `freed` has the bracket sets freed. -/
structure Dfa where
  trees : List BinTree
  strTreeStorageIdx : Nat
  chunks : Nat
  freed : List Nat

/-- A change of the node that a pointer leads to. -/
def modifyTree (trees : List BinTree) (tree : Nat) (f : BinTree → BinTree) :
    Option (List BinTree) :=
  if tree < trees.length then some (trees.modify tree f) else none

def Dfa.modify (dfa : Dfa) (tree : Nat) (f : BinTree → BinTree) : Option Dfa := do
  some { dfa with trees := ← modifyTree dfa.trees tree f }

variable (ok : Nat → Bool)

/-! ## Making trees -/

/-- `if (child != NULL) child->parent = tree;` -/
def setParent (trees : List BinTree) (tree : Nat) : Option Nat → Option (List BinTree)
  | none => some trees
  | some child => modifyTree trees child fun node => { node with parent := some tree }

def createTokenTree (dfa : Dfa) (left right : Option Nat) (token : Token) :
    Option (Dfa × Option Nat) :=
  if dfa.strTreeStorageIdx = BIN_TREE_STORAGE_SIZE ∧ !ok dfa.chunks then
    some ({ dfa with chunks := dfa.chunks + 1 }, none)
  else do
    let dfa := if dfa.strTreeStorageIdx = BIN_TREE_STORAGE_SIZE then
        { dfa with chunks := dfa.chunks + 1, strTreeStorageIdx := 0 }
      else dfa
    let tree := dfa.trees.length
    let token := { token with duplicated := false, optSubexp := false }
    let trees ← setParent (dfa.trees ++ [⟨none, left, right, token⟩]) tree left
    let trees ← setParent trees tree right
    some ({ dfa with trees := trees, strTreeStorageIdx := dfa.strTreeStorageIdx + 1 }, some tree)

def createTree (dfa : Dfa) (left right : Option Nat) (type : TokenType) :
    Option (Dfa × Option Nat) :=
  createTokenTree ok dfa left right { type := type }

/-! ## duplicate_tree -/

/-- What `p_new` points to. -/
inductive Slot where
  | dupRoot
  | left (tree : Nat)
  | right (tree : Nat)

/-- The heads of the two loops: a node is to be copied, or the walk goes up from a node. -/
inductive DupAt where
  | copy (node : Nat) (pNew : Slot) (dupNode : Option Nat)
  | climb (node : Nat) (dupNode prev : Option Nat)

structure Dup where
  dfa : Dfa
  dupRoot : Option Nat
  pos : DupAt

/-- `*p_new = tree`. -/
def Dup.store (s : Dup) (pNew : Slot) (tree : Option Nat) : Option Dup :=
  match pNew with
  | .dupRoot => some { s with dupRoot := tree }
  | .left node => do some { s with dfa := ← s.dfa.modify node ({ · with left := tree }) }
  | .right node => do some { s with dfa := ← s.dfa.modify node ({ · with right := tree }) }

/-- One pass of either loop. -/
def dupPass (s : Dup) : Option (Dup ⊕ (Dfa × Option Nat)) :=
  match s.pos with
  | .copy node pNew dupNode => do
    let src ← s.dfa.trees[node]?
    -- create a new tree and link it back to the current parent
    let (dfa, new) ← createTokenTree ok s.dfa none none src.token
    let s ← { s with dfa := dfa }.store pNew new
    match new with
    | none => some (.inr (s.dfa, none))
    | some tree => do
      let dfa ← s.dfa.modify tree fun new =>
        { new with parent := dupNode, token := { new.token with duplicated := true } }
      match src.left with
      | some left => some (.inl { s with dfa := dfa, pos := .copy left (.left tree) (some tree) })
      | none => some (.inl { s with dfa := dfa, pos := .climb node (some tree) none })
  | .climb node dupNode prev => do
    let src ← s.dfa.trees[node]?
    let dupIdx ← dupNode
    let dup ← s.dfa.trees[dupIdx]?
    if src.right = prev ∨ src.right = none then
      match src.parent with
      | none => some (.inr (s.dfa, s.dupRoot))
      | some parent => some (.inl { s with pos := .climb parent dup.parent (some node) })
    else do
      some (.inl { s with pos := .copy (← src.right) (.right dupIdx) dupNode })

def duplicateTree (fuel : Nat) (dfa : Dfa) (root : Nat) : Option (Dfa × Option Nat) := do
  let tree ← dfa.trees[root]?
  tryLoop (dupPass ok) fuel ⟨dfa, none, .copy root .dupRoot tree.parent⟩

/-! ## postorder -/

/-- The heads of the two loops: the walk goes down from a node, or visits it. -/
inductive PostAt where
  | descend (node : Nat)
  | visit (node : Nat)

/-- One pass of either loop; `fn` never fails. -/
def postPass (fn : Nat → Dfa → Option Dfa) (s : Dfa × PostAt) :
    Option ((Dfa × PostAt) ⊕ Dfa) :=
  match s.2 with
  | .descend node => do
    let tree ← s.1.trees[node]?
    match tree.left, tree.right with
    | some left, _ => some (.inl (s.1, .descend left))
    | none, some right => some (.inl (s.1, .descend right))
    | none, none => some (.inl (s.1, .visit node))
  | .visit node => do
    let dfa ← fn node s.1
    let tree ← dfa.trees[node]?
    match tree.parent with
    | none => some (.inr dfa)
    | some parent => do
      let up ← dfa.trees[parent]?
      -- go up while we have a node that is reached from the right
      if up.right = some node ∨ up.right = none then some (.inl (dfa, .visit parent))
      else do some (.inl (dfa, .descend (← up.right)))

def postorder (fuel : Nat) (fn : Nat → Dfa → Option Dfa) (dfa : Dfa) (root : Nat) : Option Dfa :=
  tryLoop (postPass fn) fuel (dfa, .descend root)

/-- What `mark_opt_subexp` does to a token. -/
def Token.mark (idx : Nat) (token : Token) : Token :=
  if token.type = .subexp ∧ token.opr = idx then { token with optSubexp := true } else token

def markOptSubexp (idx : Nat) (node : Nat) (dfa : Dfa) : Option Dfa :=
  dfa.modify node fun tree => { tree with token := tree.token.mark idx }

/-- `free_tree`, that is `free_token` on the token of the node. -/
def freeTree (node : Nat) (dfa : Dfa) : Option Dfa := do
  let tree ← dfa.trees[node]?
  if (tree.token.type = .complexBracket ∨ tree.token.type = .simpleBracket) ∧
      !tree.token.duplicated then
    some { dfa with freed := dfa.freed ++ [tree.token.opr] }
  else some dfa

/-! ## Reading the operator -/

/-- `fetch_token`: at the end of the string only the type is set. -/
def fetchToken (token : Token) : List Token → Token × List Token
  | [] => ({ token with type := .endOfRe }, [])
  | next :: regexp => (next, regexp)

/-- The loop of `fetch_number`, with the number so far. -/
def fetchNumber (num : Int) (token : Token) : List Token → Int × Token × List Token
  | [] => (-2, { token with type := .endOfRe }, [])
  | next :: regexp =>
    if next.type = .endOfRe then (-2, next, regexp)
    else if next.type = .opCloseDupNum ∨ next.c = 0x2c then (num, next, regexp)
    else
      let num : Int :=
        if next.type ≠ .character ∨ next.c < 0x30 ∨ 0x39 < next.c ∨ num = -2 then -2
        else if num = -1 then next.c - 0x30
        else min (RE_DUP_MAX + 1) (num * 10 + next.c - 0x30)
      fetchNumber num next regexp

/-- What the operator asks for: a `stop` of `-1` is none, `rollback` makes the operator an ordinary
    character. -/
inductive Bounds where
  | error (err : RegErrcode)
  | rollback
  | accepted (start stop : Int)
  deriving DecidableEq

/-- The first part of `parse_dup_op`, with the token and the rest of the string that it leaves;
    `invalidOrd` is `syntax & RE_INVALID_INTERVAL_ORD`. -/
def dupBounds (invalidOrd : Bool) (token : Token) (regexp : List Token) :
    Bounds × Token × List Token :=
  if token.type = .opOpenDupNum then
    let (start, token, regexp) := fetchNumber (-1) token regexp
    if start = -1 ∧ ¬ (token.type = .character ∧ token.c = 0x2c) then
      (.error REG_BADBR, token, regexp)
    else
      let start := if start = -1 then 0 else start
      let (stop, token, regexp) :=
        if start = -2 then (0, token, regexp)
        else if token.type = .opCloseDupNum then (start, token, regexp)
        else if token.type = .character ∧ token.c = 0x2c then fetchNumber (-1) token regexp
        else (-2, token, regexp)
      if start = -2 ∨ stop = -2 then
        if !invalidOrd then
          (.error (if token.type = .endOfRe then REG_EBRACE else REG_BADBR), token, regexp)
        else (.rollback, token, regexp)
      else if (stop ≠ -1 ∧ start > stop) ∨ token.type ≠ .opCloseDupNum then
        (.error REG_BADBR, token, regexp)
      else if RE_DUP_MAX < (if stop = -1 then start else stop) then
        (.error REG_ESIZE, token, regexp)
      else (.accepted start stop, token, regexp)
  else
    (.accepted (if token.type = .opDupPlus then 1 else 0)
      (if token.type = .opDupQuestion then 1 else -1), token, regexp)

/-! ## parse_dup_op -/

/-- `for (i = 2; i <= start; ++i)`, `n` passes of it: `elem` and `tree`, unless the storage is
    exhausted. -/
def mandatoryCopies (fuel : Nat) : Nat → Dfa → Nat → Nat → Option (Dfa × Option (Nat × Nat))
  | 0, dfa, elem, tree => some (dfa, some (elem, tree))
  | n + 1, dfa, elem, tree => do
    let (dfa, dup) ← duplicateTree ok fuel dfa elem
    let (dfa, new) ← createTree ok dfa (some tree) dup .concat
    match dup, new with
    | some elem, some tree => mandatoryCopies fuel n dfa elem tree
    | _, _ => some (dfa, none)

/-- `for (i = start + 2; i <= end; ++i)`, `n` passes of it. -/
def optionalCopies (fuel : Nat) : Nat → Dfa → Nat → Nat → Option (Dfa × Option (Nat × Nat))
  | 0, dfa, elem, tree => some (dfa, some (elem, tree))
  | n + 1, dfa, elem, tree => do
    let (dfa, dup) ← duplicateTree ok fuel dfa elem
    let (dfa, new) ← createTree ok dfa (some tree) dup .concat
    match dup, new with
    | some elem, some tree => do
      let (dfa, new) ← createTree ok dfa (some tree) none .opAlt
      match new with
      | some tree => optionalCopies fuel n dfa elem tree
      | none => some (dfa, none)
    | _, _ => some (dfa, none)

/-- From the mark of `elem` on. -/
def expandOptional (fuel : Nat) (dfa : Dfa) (elem : Nat) (oldTree : Option Nat)
    (start stop : Int) : Option (Dfa × Option Nat × RegErrcode) := do
  let node ← dfa.trees[elem]?
  let dfa ← (if node.token.type = .subexp then
      postorder fuel (markOptSubexp node.token.opr) dfa elem
    else some dfa)
  let (dfa, tree) ← createTree ok dfa (some elem) none
    (if stop = -1 then .opDupAsterisk else .opAlt)
  match tree with
  | none => some (dfa, none, REG_ESPACE)
  | some tree => do
    let (dfa, r) ← optionalCopies ok fuel (stop - (start + 1)).toNat dfa elem tree
    match r, oldTree with
    | none, _ => some (dfa, none, REG_ESPACE)
    | some (_, tree), none => some (dfa, some tree, REG_NOERROR)
    | some (_, tree), some oldTree => do
      let (dfa, tree) ← createTree ok dfa (some oldTree) (some tree) .concat
      some (dfa, tree, REG_NOERROR)

/-- The second part of `parse_dup_op`, for an operand and bounds that are not both zero. -/
def expandDup (fuel : Nat) (dfa : Dfa) (elem : Nat) (start stop : Int) :
    Option (Dfa × Option Nat × RegErrcode) :=
  if start > 0 then do
    let (dfa, r) ← mandatoryCopies ok fuel (start - 1).toNat dfa elem elem
    match r with
    | none => some (dfa, none, REG_ESPACE)
    | some (elem, tree) =>
      if start = stop then some (dfa, some tree, REG_NOERROR)
      else do
        -- duplicate `elem` before it is marked optional
        let (dfa, dup) ← duplicateTree ok fuel dfa elem
        match dup with
        | none => some (dfa, none, REG_ESPACE)
        | some elem => expandOptional ok fuel dfa elem (some tree) start stop
  else expandOptional ok fuel dfa elem none start stop

/-- What a call leaves: its result, `*err`, `*token`, the rest of the string, the trees. -/
structure Parsed where
  tree : Option Nat
  err : RegErrcode
  token : Token
  regexp : List Token
  dfa : Dfa

/-- `parse_dup_op`, with `*err` zero. -/
def parseDupOp (fuel : Nat) (elem : Option Nat) (regexp : List Token) (dfa : Dfa) (token : Token)
    (invalidOrd : Bool) : Option Parsed :=
  match dupBounds invalidOrd token regexp with
  | (.error err, tok, rest) => some ⟨none, err, tok, rest, dfa⟩
  | (.rollback, _, _) => some ⟨elem, REG_NOERROR, { token with type := .character }, regexp, dfa⟩
  | (.accepted start stop, tok, rest) =>
    let (tok, rest) := fetchToken tok rest
    match elem with
    | none => some ⟨none, REG_NOERROR, tok, rest, dfa⟩
    | some elem =>
      if start = 0 ∧ stop = 0 then do
        some ⟨none, REG_NOERROR, tok, rest, ← postorder fuel freeTree dfa elem⟩
      else do
        let (dfa, tree, err) ← expandDup ok fuel dfa elem start stop
        some ⟨tree, err, tok, rest, dfa⟩

end Librecompat.RegTree
