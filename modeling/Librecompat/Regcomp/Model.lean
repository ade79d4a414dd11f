/-
  The parser of src/regex/regcomp.c: `parse`, `parse_reg_exp`, `parse_branch`, `parse_expression`
  and `parse_sub_exp`.

  What depends on the string and the locale is a `Reader`: `fetch_token`, the bytes that are not the
  first of a character, bracket expressions and the operators `\w`, `\s`. Trees and `parse_dup_op`
  are those of `RegTree.Model`; that function gets the list of the tokens that the rest of the
  string has. `none` means that a call follows a null pointer, or that the fuel does not suffice: it
  bounds the depth of the recursion and the passes of each loop. `*err` is the field `err`. `marks`
  is not in the source: the parser notes which parentheses, alternations and back references it has
  accepted, each with `re_string_cur_idx` behind it.
-/
import Librecompat.RegTree.Tokens

namespace Librecompat.Regcomp

open Librecompat.Lib Librecompat.RegTree
open Librecompat.Regex (RegErrcode REG_NOERROR REG_ESPACE)

def REG_EESCAPE : RegErrcode := 5
def REG_ESUBREG : RegErrcode := 6
def REG_EPAREN : RegErrcode := 8
def REG_BADRPT : RegErrcode := 13
def REG_ERPAREN : RegErrcode := 16

/-! ## regex.h: the bits of the syntax that the parser reads -/

/-- `reg_syntax_t`. -/
abbrev RegSyntax := Nat

def RE_CONTEXT_INDEP_OPS : RegSyntax := 0x10
def RE_CONTEXT_INVALID_OPS : RegSyntax := 0x20
def RE_UNMATCHED_RIGHT_PAREN_ORD : RegSyntax := 0x20000
def RE_INVALID_INTERVAL_ORD : RegSyntax := 0x200000
def RE_CONTEXT_INVALID_DUP : RegSyntax := 0x1000000

/-- `syntax & bit`. -/
def RegSyntax.has (syn : RegSyntax) (bit : Nat) : Bool := syn &&& bit ≠ 0

/-! ## regex_internal.h: the types of anchors -/

def INSIDE_WORD : Nat := 0x0005
def WORD_FIRST : Nat := 0x0006
def WORD_LAST : Nat := 0x0009
def INSIDE_NOTWORD : Nat := 0x000a
def WORD_DELIM : Nat := 0x0100
def NOT_WORD_DELIM : Nat := 0x0200

/-! ## Strings and states -/

/-- The string that is parsed, in its locale; `σ` is the type of its positions. -/
structure Reader (σ : Type) where
  /-- `re_string_cur_idx`. -/
  curIdx : σ → Nat
  /-- `fetch_token`, with `RE_CARET_ANCHORS_HERE` added to the syntax or not. -/
  fetchToken : Bool → Token → σ → Token × σ
  /-- There is a byte, and it is not the first one of a character. -/
  partialByte : σ → Bool
  /-- `parse_bracket_exp`. -/
  parseBracketExp : Dfa → Token → σ → Option (Dfa × Token × σ × Option Nat × RegErrcode)
  /-- `build_charclass_op` for the token types `OP_WORD`, `OP_NOTWORD`, `OP_SPACE` and
      `OP_NOTSPACE`. -/
  buildCharclassOp : TokenType → Dfa → Option (Dfa × Option Nat × RegErrcode)
  fetchToken_le : ∀ caret token s, curIdx s ≤ curIdx (fetchToken caret token s).2
  fetchToken_lt : ∀ caret token s, (fetchToken caret token s).1.type ≠ .endOfRe →
    curIdx s < curIdx (fetchToken caret token s).2
  parseBracketExp_le : ∀ {dfa token s dfa' token' s' tree err},
    parseBracketExp dfa token s = some (dfa', token', s', tree, err) → curIdx s ≤ curIdx s'
  parseBracketExp_err : ∀ {dfa token s dfa' token' s' tree err},
    parseBracketExp dfa token s = some (dfa', token', s', tree, err) → err ≠ REG_NOERROR →
      tree = none
  buildCharclassOp_err : ∀ {type dfa dfa' tree err},
    buildCharclassOp type dfa = some (dfa', tree, err) → err ≠ REG_NOERROR → tree = none
  /-- The rest of a character is no operator. -/
  fetchToken_partial : ∀ caret token s, partialByte s = true →
    (fetchToken caret token s).1.type = .character
  parseBracketExp_refs : ∀ {dfa token s dfa' token' s' tree err},
    parseBracketExp dfa token s = some (dfa', token', s', tree, err) →
      SameRefs dfa.trees dfa'.trees
  buildCharclassOp_refs : ∀ {type dfa dfa' tree err},
    buildCharclassOp type dfa = some (dfa', tree, err) → SameRefs dfa.trees dfa'.trees

/-- What the parser accepts. -/
inductive MarkKind where
  | openSubexp
  | closeSubexp
  | alt
  | backRef (idx : Nat)
  deriving DecidableEq

structure Mark where
  kind : MarkKind
  idx : Nat
  deriving DecidableEq

/-- The string, the current token, `*err`, and of `regex_t` and `re_dfa_t` what the parser
    changes. -/
structure State (σ : Type) where
  regexp : σ
  token : Token
  err : RegErrcode
  dfa : Dfa
  reNsub : Nat
  completedBkrefMap : Nat
  usedBkrefMap : Nat
  nbackref : Nat
  wordOpsUsed : Bool
  marks : List Mark

/-- What a function of the parser leaves: the state and its result. -/
abbrev Result (σ : Type) := State σ × Option Nat

variable {σ : Type} (rd : Reader σ) (ok : Nat → Bool) (syn : RegSyntax)

/-- `fetch_token (token, regexp, syntax)`. -/
def State.fetch (caret : Bool) (s : State σ) : State σ :=
  let r := rd.fetchToken caret s.token s.regexp
  { s with token := r.1, regexp := r.2 }

def State.note (kind : MarkKind) (s : State σ) : State σ :=
  { s with marks := s.marks ++ [⟨kind, rd.curIdx s.regexp⟩] }

/-- `*err = err; return NULL;` -/
def fail (s : State σ) (err : RegErrcode) : Option (Result σ) := some ({ s with err := err }, none)

/-- `return NULL;` -/
def abandon (s : State σ) : Option (Result σ) := some (s, none)

/-- `if (tree != NULL) postorder (tree, free_tree, NULL);` -/
def freeAll (fuel : Nat) (s : State σ) : Option Nat → Option (State σ)
  | none => some s
  | some tree => do some { s with dfa := ← postorder fuel freeTree s.dfa tree }

/-- The tree is freed, and the result is a null pointer. -/
def discard (fuel : Nat) (tree : Option Nat) (s : State σ) : Option (Result σ) := do
  some (← freeAll fuel s tree, none)

/-- A call, and behind it `if (*err != REG_NOERROR && tree == NULL)`. -/
def checked (r : Option (Result σ)) (failed : State σ → Option (Result σ))
    (k : State σ → Option Nat → Option (Result σ)) : Option (Result σ) :=
  r.bind fun q => if q.1.err ≠ REG_NOERROR ∧ q.2 = none then failed q.1 else k q.1 q.2

/-- A call of `create_tree` or `create_token_tree`; a null pointer is
    `*err = REG_ESPACE; return NULL;`. -/
def created (s : State σ) (r : Option (Dfa × Option Nat))
    (k : State σ → Nat → Option (Result σ)) : Option (Result σ) :=
  r.bind fun q =>
    match q.2 with
    | none => fail { s with dfa := q.1 } REG_ESPACE
    | some tree => k { s with dfa := q.1 } tree

/-- `create_token_tree (dfa, NULL, NULL, token)`. -/
def createLeaf (s : State σ) : Option (Result σ) :=
  created s (createTokenTree ok s.dfa none none s.token) fun s tree => some (s, some tree)

/-! ## Repetition operators -/

/-- The tokens that the rest of the string has, each with the position behind it. -/
def tokensFrom : Nat → Token → σ → Option (List (Token × σ))
  | 0, _, _ => none
  | fuel + 1, token, s =>
    let r := rd.fetchToken false token s
    if r.1.type = .endOfRe then some [] else do some (r :: (← tokensFrom fuel r.1 r.2))

/-- `parse_dup_op`: the string is left behind the tokens that it has taken. -/
def parseDup (fuel : Nat) (s : State σ) (tree : Option Nat) : Option (Result σ) := do
  let tokens ← tokensFrom rd fuel s.token s.regexp
  let p ← parseDupOp ok fuel tree (tokens.map Prod.fst) s.dfa s.token
    (syn.has RE_INVALID_INTERVAL_ORD)
  let taken := tokens.take (tokens.length - p.regexp.length)
  let s := { s with
    dfa := p.dfa
    token := p.token
    err := if p.err ≠ REG_NOERROR then p.err else s.err
    regexp := (taken.getLast?.map Prod.snd).getD s.regexp }
  some (s, p.tree)

/-- `while (token->type == OP_DUP_ASTERISK || …)` at the end of `parse_expression`. -/
def dupLoop (fuel : Nat) : Nat → State σ → Option Nat → Option (Result σ)
  | 0, _, _ => none
  | n + 1, s, tree =>
    if s.token.type = .opDupAsterisk ∨ s.token.type = .opDupPlus ∨
        s.token.type = .opDupQuestion ∨ s.token.type = .opOpenDupNum then
      checked (parseDup rd ok syn fuel s tree) (discard fuel tree) fun s dupTree =>
        -- in BRE consecutive duplications are not allowed
        if syn.has RE_CONTEXT_INVALID_DUP ∧
            (s.token.type = .opDupAsterisk ∨ s.token.type = .opOpenDupNum) then do
          fail (← freeAll fuel s dupTree) REG_BADRPT
        else dupLoop fuel n s dupTree
    else some (s, tree)

/-- The end of `parse_expression`, behind the `switch`. -/
def repetition (fuel : Nat) (r : Option (Result σ)) : Option (Result σ) :=
  checked r abandon fun s tree => dupLoop rd ok syn fuel fuel (s.fetch rd false) tree

/-! ## parse_sub_exp -/

/-- `parse_reg_exp` and the checks behind it; `none` in the second component is
    `return NULL`. -/
def groupBody (regExp : State σ → Option (Result σ)) (fuel : Nat) (s : State σ) :
    Option (State σ × Option (Option Nat)) := do
  let (s, tree) ← regExp s
  if s.err = REG_NOERROR ∧ s.token.type ≠ .opCloseSubexp then do
    some ({ (← freeAll fuel s tree) with err := REG_EPAREN }, none)
  else if s.err ≠ REG_NOERROR then some (s, none)
  else some (s, some tree)

/-- The end of `parse_sub_exp`, from the closing parenthesis on. -/
def closeSubExp (curNsub : Nat) (s : State σ) (tree : Option Nat) : Option (Result σ) :=
  let s := { s.note rd .closeSubexp with
    completedBkrefMap :=
      if curNsub ≤ 8 then s.completedBkrefMap ||| 1 <<< curNsub else s.completedBkrefMap }
  created s (createTree ok s.dfa tree none .subexp) fun s tree => do
    let dfa ← s.dfa.modify tree fun node =>
      { node with token := { node.token with opr := curNsub } }
    some ({ s with dfa := dfa }, some tree)

/-- The start of `parse_sub_exp`. -/
def openSubExp (s : State σ) : State σ :=
  ({ s.note rd .openSubexp with reNsub := s.reNsub + 1 }).fetch rd true

/-- `parse_sub_exp`; `regExp` is `parse_reg_exp` at the nesting depth. -/
def parseSubExp (regExp : State σ → Option (Result σ)) (fuel : Nat) (s : State σ) :
    Option (Result σ) :=
  let curNsub := s.reNsub
  let s := openSubExp rd s
  -- the subexpression may be a null string
  if s.token.type = .opCloseSubexp then closeSubExp rd ok curNsub s none
  else do
    let (s, r) ← groupBody regExp fuel s
    match r with
    | none => abandon s
    | some tree => closeSubExp rd ok curNsub s tree

/-! ## parse_expression -/

/-- The rest of a character of several bytes. -/
def restOfChar : Nat → State σ → Option Nat → Option (Result σ)
  | 0, _, _ => none
  | fuel + 1, s, tree =>
    if rd.partialByte s.regexp then do
      let s := s.fetch rd false
      let (dfa, mbcRemain) ← createTokenTree ok s.dfa none none s.token
      let (dfa, tree) ← createTree ok dfa tree mbcRemain .concat
      let s := { s with dfa := dfa }
      if mbcRemain = none ∨ tree = none then fail s REG_ESPACE else restOfChar fuel s tree
    else some (s, tree)

/-- `WORD_DELIM` and `NOT_WORD_DELIM` are alternations of two anchors. -/
def wordDelim (s : State σ) : Option (Result σ) := do
  let ctx := if s.token.opr = WORD_DELIM then (WORD_FIRST, WORD_LAST)
    else (INSIDE_WORD, INSIDE_NOTWORD)
  let last := { s.token with opr := ctx.2 }
  let (dfa, treeFirst) ← createTokenTree ok s.dfa none none { s.token with opr := ctx.1 }
  let (dfa, treeLast) ← createTokenTree ok dfa none none last
  let (dfa, tree) ← createTree ok dfa treeFirst treeLast .opAlt
  let s := { s with dfa := dfa, token := last }
  if treeFirst = none ∨ treeLast = none ∨ tree = none then fail s REG_ESPACE else some (s, tree)

/-- `init_word_char`, if the anchor is about words. -/
def useWords (s : State σ) : State σ :=
  if s.token.opr &&& (WORD_DELIM ||| NOT_WORD_DELIM ||| WORD_FIRST ||| WORD_LAST) ≠ 0 then
    { s with wordOpsUsed := true }
  else s

@[simp] theorem useWords_token (s : State σ) : (useWords s).token = s.token := by
  unfold useWords
  split <;> rfl

/-- `case ANCHOR`: no repetition operator can follow. -/
def parseAnchor (s : State σ) : Option (Result σ) :=
  let s := useWords s
  checked
    (if s.token.opr = WORD_DELIM ∨ s.token.opr = NOT_WORD_DELIM then wordDelim ok s
      else createLeaf ok s)
    abandon fun s tree => some (s.fetch rd false, tree)

/-- `case OP_BACK_REF`. -/
def parseBackRef (s : State σ) : Option (Result σ) :=
  if !s.completedBkrefMap.testBit s.token.opr then fail s REG_ESUBREG
  else
    let s := { s.note rd (.backRef s.token.opr) with
      usedBkrefMap := s.usedBkrefMap ||| 1 <<< s.token.opr }
    created s (createTokenTree ok s.dfa none none s.token) fun s tree =>
      some ({ s with nbackref := s.nbackref + 1 }, some tree)

/-- The operators that are not treated as such become normal characters. -/
def normalChar (s : State σ) : Option (Result σ) :=
  createLeaf ok { s with token := { s.token with type := .character } }

/-- `case OP_OPEN_BRACKET`. -/
def bracket (s : State σ) : Option (Result σ) := do
  let (dfa, token, regexp, tree, err) ← rd.parseBracketExp s.dfa s.token s.regexp
  let s := { s with dfa := dfa, token := token, regexp := regexp }
  some ({ s with err := if err ≠ REG_NOERROR then err else s.err }, tree)

/-- `case OP_WORD` to `case OP_NOTSPACE`. -/
def charclassOp (s : State σ) : Option (Result σ) := do
  let (dfa, tree, err) ← rd.buildCharclassOp s.token.type s.dfa
  let s := { s with dfa := dfa }
  some ({ s with err := if err ≠ REG_NOERROR then err else s.err }, tree)

/-- `parse_expression`, with `parse_reg_exp` for the subexpressions. -/
def parseExpression (regExp : State σ → Option (Result σ)) (fuel : Nat) :
    Nat → State σ → Option (Result σ)
  | 0, _ => none
  | n + 1, s =>
    match s.token.type with
    | .character =>
      repetition rd ok syn fuel (checked (createLeaf ok s) abandon (restOfChar rd ok fuel))
    | .opOpenSubexp => repetition rd ok syn fuel (parseSubExp rd ok regExp fuel s)
    | .opOpenBracket => repetition rd ok syn fuel (bracket rd s)
    | .opBackRef => repetition rd ok syn fuel (parseBackRef rd ok s)
    | .opOpenDupNum | .opDupAsterisk | .opDupPlus | .opDupQuestion =>
      if s.token.type = .opOpenDupNum ∧ syn.has RE_CONTEXT_INVALID_DUP then fail s REG_BADRPT
      else if syn.has RE_CONTEXT_INVALID_OPS then fail s REG_BADRPT
      else if syn.has RE_CONTEXT_INDEP_OPS then parseExpression regExp fuel n (s.fetch rd false)
      else repetition rd ok syn fuel (normalChar ok s)
    | .opCloseSubexp =>
      if !syn.has RE_UNMATCHED_RIGHT_PAREN_ORD then fail s REG_ERPAREN
      else repetition rd ok syn fuel (normalChar ok s)
    | .opCloseDupNum => repetition rd ok syn fuel (normalChar ok s)
    | .anchor => parseAnchor rd ok s
    | .opPeriod => repetition rd ok syn fuel (createLeaf ok s)
    | .opWord | .opNotword | .opSpace | .opNotspace =>
      repetition rd ok syn fuel (charclassOp rd s)
    | .backSlash => fail s REG_EESCAPE
    -- `OP_ALT`, `END_OF_RE`, and what must not happen
    | _ => abandon s

/-! ## parse_branch, parse_reg_exp, parse -/

/-- The branch does not end at the token. -/
def inBranch (nest : Nat) (token : Token) : Bool :=
  token.type ≠ .opAlt && token.type ≠ .endOfRe && (nest = 0 || token.type ≠ .opCloseSubexp)

/-- The loop of `parse_branch`; `expression` is `parse_expression` at the depth. -/
def branchLoop (expression : State σ → Option (Result σ)) (fuel nest : Nat) :
    Nat → State σ → Option Nat → Option (Result σ)
  | 0, _, _ => none
  | n + 1, s, tree =>
    if inBranch nest s.token then
      checked (expression s) (discard fuel tree) fun s expr =>
        if tree ≠ none ∧ expr ≠ none then do
          let (dfa, newtree) ← createTree ok s.dfa tree expr .concat
          let s := { s with dfa := dfa }
          if newtree = none then do
            fail (← freeAll fuel (← freeAll fuel s expr) tree) REG_ESPACE
          else branchLoop expression fuel nest n s newtree
        else branchLoop expression fuel nest n s (tree.or expr)
    else some (s, tree)

def parseBranch (expression : State σ → Option (Result σ)) (fuel nest : Nat) (s : State σ) :
    Option (Result σ) :=
  checked (expression s) abandon (branchLoop ok expression fuel nest fuel)

/-- What the loop of `parse_reg_exp` does behind the operator; the groups that are completed are at
    first those in front of all branches. -/
def altBranch (branch : State σ → Option (Result σ)) (fuel nest initialBkrefMap : Nat) (s : State σ)
    (tree : Option Nat) (k : State σ → Option Nat → Option (Result σ)) : Option (Result σ) :=
  if inBranch nest s.token then
    let accumulatedBkrefMap := s.completedBkrefMap
    checked (branch { s with completedBkrefMap := initialBkrefMap }) (discard fuel tree) fun s br =>
      k { s with completedBkrefMap := s.completedBkrefMap ||| accumulatedBkrefMap } br
  else k s none

/-- The loop of `parse_reg_exp`; `branch` is `parse_branch`. -/
def altLoop (branch : State σ → Option (Result σ)) (fuel nest initialBkrefMap : Nat) :
    Nat → State σ → Option Nat → Option (Result σ)
  | 0, _, _ => none
  | n + 1, s, tree =>
    if s.token.type = .opAlt then
      altBranch branch fuel nest initialBkrefMap ((s.note rd .alt).fetch rd true) tree fun s br =>
        created s (createTree ok s.dfa tree br .opAlt) fun s tree =>
          altLoop branch fuel nest initialBkrefMap n s (some tree)
    else some (s, tree)

/-- `parse_reg_exp`; the subexpressions are one level deeper. -/
def parseRegExp : Nat → Nat → State σ → Option (Result σ)
  | 0, _, _ => none
  | fuel + 1, nest, s =>
    let expression := parseExpression rd ok syn (parseRegExp fuel (nest + 1)) fuel fuel
    let branch := parseBranch ok expression fuel nest
    checked (branch s) abandon (altLoop rd ok branch fuel nest s.completedBkrefMap fuel)

/-- The state at the start of `parse`. -/
def State.initial (regexp : σ) : State σ where
  regexp := regexp
  token := { type := .nonType }
  err := REG_NOERROR
  dfa := ⟨[], BIN_TREE_STORAGE_SIZE, 0, []⟩
  reNsub := 0
  completedBkrefMap := 0
  usedBkrefMap := 0
  nbackref := 0
  wordOpsUsed := false
  marks := []

def parse (fuel : Nat) (regexp : σ) : Option (Result σ) :=
  checked (parseRegExp rd ok syn fuel 0 ((State.initial regexp).fetch rd true)) abandon
    fun s tree => do
      let (dfa, eor) ← createTree ok s.dfa none none .endOfRe
      let (dfa, root) ← (if tree ≠ none then createTree ok dfa tree eor .concat else some (dfa, eor))
      let s := { s with dfa := dfa }
      if eor = none ∨ root = none then fail s REG_ESPACE else some (s, root)

end Librecompat.Regcomp
