/-
  How src/regex/regcomp.c reads a pattern in a single-byte locale: `peek_token`,
  `peek_token_bracket`, `parse_bracket_exp` and what they call.

  A `Byte` of the pattern comes translated and as it is. The locale says which bytes the functions of
  ctype.h accept. In such a locale a bracket is one node with a set of bytes: in its token, `opr` is
  the number with the bits of the set. `okSet k` says whether the sets of a bracket can be allocated
  when there are `k` trees.
-/
import Librecompat.Lib.Yields
import Librecompat.Regcomp.Model
import Librecompat.Regex.Bits
import Librecompat.Darwin

namespace Librecompat.Regcomp

open Librecompat.Lib Librecompat.RegTree
open Librecompat.Regex (RegErrcode REG_NOERROR REG_ESPACE SBC_MAX Bitset bitsetSet bitsetNot
  bitsetEmpty)

def REG_BADPAT : RegErrcode := 2
def REG_ECOLLATE : RegErrcode := 3
def REG_ECTYPE : RegErrcode := 4
def REG_EBRACK : RegErrcode := 7
def REG_ERANGE : RegErrcode := 11

def RE_BACKSLASH_ESCAPE_IN_LISTS : RegSyntax := 0x1
def RE_BK_PLUS_QM : RegSyntax := 0x2
def RE_CHAR_CLASSES : RegSyntax := 0x4
def RE_CONTEXT_INDEP_ANCHORS : RegSyntax := 0x8
def RE_HAT_LISTS_NOT_NEWLINE : RegSyntax := 0x100
def RE_INTERVALS : RegSyntax := 0x200
def RE_LIMITED_OPS : RegSyntax := 0x400
def RE_NEWLINE_ALT : RegSyntax := 0x800
def RE_NO_BK_BRACES : RegSyntax := 0x1000
def RE_NO_BK_PARENS : RegSyntax := 0x2000
def RE_NO_BK_REFS : RegSyntax := 0x4000
def RE_NO_BK_VBAR : RegSyntax := 0x8000
def RE_NO_EMPTY_RANGES : RegSyntax := 0x10000
def RE_NO_GNU_OPS : RegSyntax := 0x80000
def RE_ICASE : RegSyntax := 0x400000
def RE_CARET_ANCHORS_HERE : RegSyntax := 0x800000

def LINE_FIRST : Nat := 0x0010
def LINE_LAST : Nat := 0x0020
def BUF_FIRST : Nat := 0x0040
def BUF_LAST : Nat := 0x0080

def BRACKET_NAME_BUF_SIZE : Nat := 32

/-! ## The locale and the string -/

/-- The functions of ctype.h that a character class can name. -/
inductive Ctype where
  | isalnum | iscntrl | islower | isspace | isalpha | isdigit | isprint | isupper | isblank
  | isgraph | ispunct | isxdigit
  deriving DecidableEq

structure Locale where
  ctype : Ctype → UInt8 → Bool
  toupper : UInt8 → UInt8

/-- The C locale. -/
def cLocale : Locale where
  ctype type c :=
    let digit := 0x30 ≤ c && c ≤ 0x39
    let upper := 0x41 ≤ c && c ≤ 0x5a
    let lower := 0x61 ≤ c && c ≤ 0x7a
    match type with
    | .isalnum => digit || upper || lower
    | .iscntrl => c < 0x20 || c = 0x7f
    | .islower => lower
    | .isspace => c = 0x20 || (0x09 ≤ c && c ≤ 0x0d)
    | .isalpha => upper || lower
    | .isdigit => digit
    | .isprint => 0x20 ≤ c && c < 0x7f
    | .isupper => upper
    | .isblank => c = 0x20 || c = 0x09
    | .isgraph => 0x20 < c && c < 0x7f
    | .ispunct => 0x20 < c && c < 0x7f && !(digit || upper || lower)
    | .isxdigit => digit || (0x41 ≤ c && c ≤ 0x46) || (0x61 ≤ c && c ≤ 0x66)
  toupper c := if 0x61 ≤ c && c ≤ 0x7a then c - 0x20 else c

structure Byte where
  mbs : UInt8
  raw : UInt8

/-- `re_string_t`: `re_string_cur_idx`, the byte in front of it, and the bytes from it on. -/
structure Input where
  curIdx : Nat
  prev : Option UInt8
  rest : List Byte

/-- `re_string_construct`, for a table `trans` or none. -/
def construct (loc : Locale) (trans : Option (UInt8 → UInt8)) (syn : RegSyntax)
    (pattern : List UInt8) : Input where
  curIdx := 0
  prev := none
  rest := pattern.map fun ch =>
    let translated := trans.elim ch fun trans => trans ch
    ⟨if syn.has RE_ICASE then loc.toupper translated else translated, ch⟩

/-- `re_string_skip_bytes`. -/
def Input.skip : Nat → Input → Input
  | 0, input => input
  | n + 1, ⟨curIdx, prev, []⟩ => ⟨curIdx + (n + 1), prev, []⟩
  | n + 1, ⟨curIdx, _, byte :: rest⟩ => Input.skip n ⟨curIdx + 1, some byte.mbs, rest⟩

/-! ## peek_token -/

/-- A case of a `switch`: the byte, whether it is special under the bits of the syntax, the type of
    its token, and `opr` if it is not the byte. -/
structure Special where
  byte : UInt8
  special : Bool
  type : TokenType
  opr : Option Nat := none

/-- The token of a byte. -/
def lookup (cases : List Special) (c : UInt8) : TokenType × Nat :=
  match cases.find? fun e => e.byte = c && e.special with
  | some e => (e.type, e.opr.getD c.toNat)
  | none => (.character, c.toNat)

/-- `\1` to `\9`. -/
def backRefs (syn : RegSyntax) : List Special :=
  (List.range 9).map fun k => ⟨UInt8.ofNat (0x31 + k), !syn.has RE_NO_BK_REFS, .opBackRef, some k⟩

/-- What a backslash makes of the byte behind it. -/
def escapes (syn : RegSyntax) : List Special :=
  let gnu := !syn.has RE_NO_GNU_OPS
  let parens := !syn.has RE_NO_BK_PARENS
  let plusQm := !syn.has RE_LIMITED_OPS && syn.has RE_BK_PLUS_QM
  let braces := syn.has RE_INTERVALS && !syn.has RE_NO_BK_BRACES
  backRefs syn ++ [
    ⟨0x7c, !syn.has RE_LIMITED_OPS && !syn.has RE_NO_BK_VBAR, .opAlt, none⟩,  -- `|`
    ⟨0x3c, gnu, .anchor, some WORD_FIRST⟩,  -- `<`
    ⟨0x3e, gnu, .anchor, some WORD_LAST⟩,  -- `>`
    ⟨0x62, gnu, .anchor, some WORD_DELIM⟩,  -- `b`
    ⟨0x42, gnu, .anchor, some NOT_WORD_DELIM⟩,  -- `B`
    ⟨0x77, gnu, .opWord, none⟩,  -- `w`
    ⟨0x57, gnu, .opNotword, none⟩,  -- `W`
    ⟨0x73, gnu, .opSpace, none⟩,  -- `s`
    ⟨0x53, gnu, .opNotspace, none⟩,  -- `S`
    ⟨0x60, gnu, .anchor, some BUF_FIRST⟩,  -- the backtick
    ⟨0x27, gnu, .anchor, some BUF_LAST⟩,  -- the apostrophe
    ⟨0x28, parens, .opOpenSubexp, none⟩,  -- `(`
    ⟨0x29, parens, .opCloseSubexp, none⟩,  -- `)`
    ⟨0x2b, plusQm, .opDupPlus, none⟩,  -- `+`
    ⟨0x3f, plusQm, .opDupQuestion, none⟩,  -- `?`
    ⟨0x7b, braces, .opOpenDupNum, none⟩,  -- the opening brace
    ⟨0x7d, braces, .opCloseDupNum, none⟩]  -- the closing brace

/-- What a byte means without a backslash; `caret` and `dollar` say whether these two are anchors
    here. -/
def plains (syn : RegSyntax) (caret dollar : Bool) : List Special :=
  let parens := syn.has RE_NO_BK_PARENS
  let plusQm := !syn.has RE_LIMITED_OPS && !syn.has RE_BK_PLUS_QM
  let braces := syn.has RE_INTERVALS && syn.has RE_NO_BK_BRACES
  [ ⟨0x0a, syn.has RE_NEWLINE_ALT, .opAlt, none⟩,
    ⟨0x7c, !syn.has RE_LIMITED_OPS && syn.has RE_NO_BK_VBAR, .opAlt, none⟩,  -- `|`
    ⟨0x2a, true, .opDupAsterisk, none⟩,  -- `*`
    ⟨0x2b, plusQm, .opDupPlus, none⟩,  -- `+`
    ⟨0x3f, plusQm, .opDupQuestion, none⟩,  -- `?`
    ⟨0x7b, braces, .opOpenDupNum, none⟩,  -- the opening brace
    ⟨0x7d, braces, .opCloseDupNum, none⟩,  -- the closing brace
    ⟨0x28, parens, .opOpenSubexp, none⟩,  -- `(`
    ⟨0x29, parens, .opCloseSubexp, none⟩,  -- `)`
    ⟨0x5b, true, .opOpenBracket, none⟩,  -- `[`
    ⟨0x2e, true, .opPeriod, none⟩,  -- `.`
    ⟨0x5e, caret, .anchor, some LINE_FIRST⟩,  -- `^`
    ⟨0x24, dollar, .anchor, some LINE_LAST⟩]  -- `$`

/-- `case '^'`, for the byte in front. -/
def caretAnchor (syn : RegSyntax) (prev : Option UInt8) : Bool :=
  syn.has (RE_CONTEXT_INDEP_ANCHORS ||| RE_CARET_ANCHORS_HERE) ||
    match prev with
    | none => true
    | some prev => syn.has RE_NEWLINE_ALT && prev = 0x0a

/-- `peek_token`; a token behind a `$` is peeked too. -/
def peekToken (syn : RegSyntax) (token : Token) (prev : Option UInt8) : List Byte → Token × Nat
  | [] => ({ token with type := .endOfRe }, 0)
  | byte :: rest =>
    if byte.mbs = 0x5c then
      match rest with
      | [] => ({ token with type := .backSlash, opr := 0x5c }, 1)
      | next :: _ =>
        let t := lookup (escapes syn) next.raw
        ({ token with type := t.1, opr := t.2 }, 2)
    else
      let dollar := syn.has RE_CONTEXT_INDEP_ANCHORS || rest.isEmpty ||
        let next := (peekToken syn token (some byte.mbs) rest).1.type
        next = .opAlt || next = .opCloseSubexp
      let t := lookup (plains syn (caretAnchor syn prev) dollar) byte.mbs
      ({ token with type := t.1, opr := t.2 }, 1)

def fetch (syn : RegSyntax) (caret : Bool) (token : Token) (input : Input) : Token × Input :=
  let syn := if caret then syn ||| RE_CARET_ANCHORS_HERE else syn
  let r := peekToken syn token input.prev input.rest
  (r.1, input.skip r.2)

/-! ## Bracket expressions -/

/-- A bracket in a bracket expression: the token that it starts, for the byte behind it. -/
def openBracket (syn : RegSyntax) (c2 : UInt8) : Option TokenType :=
  if c2 = 0x2e then some .opOpenCollElem
  else if c2 = 0x3d then some .opOpenEquivClass
  else if c2 = 0x3a ∧ syn.has RE_CHAR_CLASSES then some .opOpenCharClass
  else none

/-- `peek_token_bracket`: an escaping backslash is skipped at once. -/
def peekTokenBracket (syn : RegSyntax) (token : Token) (input : Input) : Token × Nat × Input :=
  match input.rest with
  | [] => ({ token with type := .endOfRe }, 0, input)
  | byte :: rest =>
    let c := byte.mbs
    let c2 := rest.head?.map Byte.mbs
    let char := { token with type := TokenType.character, opr := c.toNat }
    if c = 0x5c ∧ syn.has RE_BACKSLASH_ESCAPE_IN_LISTS ∧ c2 ≠ none then
      ({ char with opr := (c2.getD 0).toNat }, 1, input.skip 1)
    else if c = 0x5b then
      match openBracket syn (c2.getD 0) with
      | some type => ({ char with type := type, opr := (c2.getD 0).toNat }, 2, input)
      | none => (char, 1, input)
    else if c = 0x2d then ({ char with type := .opCharsetRange }, 1, input)
    else if c = 0x5d then ({ char with type := .opCloseBracket }, 1, input)
    else if c = 0x5e then ({ char with type := .opNonMatchList }, 1, input)
    else (char, 1, input)

/-- `bracket_elem_t`. -/
inductive BracketElem where
  | sbChar (ch : UInt8)
  | equivClass (name : List UInt8)
  | collSym (name : List UInt8)
  | charClass (name : List UInt8)

/-- The loop of `parse_bracket_symbol` up to the delimiter and the bracket behind it, with the name
    so far. -/
def symbolName (charClass : Bool) (delim : UInt8) :
    List Byte → List UInt8 → Except RegErrcode (List UInt8)
  | [], _ => .error REG_EBRACK
  | byte :: rest, name =>
    if BRACKET_NAME_BUF_SIZE ≤ name.length then .error REG_EBRACK
    else
      let ch := if charClass then byte.raw else byte.mbs
      match rest with
      | [] => .error REG_EBRACK
      | next :: _ =>
        if ch = delim ∧ next.mbs = 0x5d then .ok name
        else symbolName charClass delim rest (name ++ [ch])

def parseBracketSymbol (token : Token) (input : Input) : Except RegErrcode (BracketElem × Input) := do
  let charClass := token.type = .opOpenCharClass
  let name ← symbolName charClass (UInt8.ofNat token.c) input.rest []
  let elem := if charClass then BracketElem.charClass name
    else if token.type = .opOpenEquivClass then .equivClass name
    else .collSym name
  .ok (elem, input.skip (name.length + 2))

def parseBracketElement (syn : RegSyntax) (token : Token) (tokenLen : Nat) (acceptHyphen : Bool)
    (input : Input) : Except RegErrcode (BracketElem × Input) :=
  let input := input.skip tokenLen
  if token.type = .opOpenCollElem ∨ token.type = .opOpenCharClass ∨
      token.type = .opOpenEquivClass then
    parseBracketSymbol token input
  else if token.type = .opCharsetRange ∧ !acceptHyphen then
    -- a hyphen must only appear before the closing bracket
    let (token2, _, input) := peekTokenBracket syn { type := .nonType } input
    if token2.type ≠ .opCloseBracket then .error REG_ERANGE
    else .ok (.sbChar (UInt8.ofNat token.c), input)
  else .ok (.sbChar (UInt8.ofNat token.c), input)

/-- The byte that a range starts or ends with. -/
def rangeByte : BracketElem → Except RegErrcode Nat
  | .sbChar ch => .ok ch.toNat
  | .collSym name =>
    if 1 < (cstr name).length then .error REG_ECOLLATE else .ok ((cstr name).headD 0).toNat
  | _ => .error REG_ERANGE

/-- The bytes for which `p` holds are added. -/
def bitsetAdd (set : Bitset) (p : Nat → Bool) (f : Nat → Nat) : Bitset :=
  (List.range SBC_MAX).foldl (fun set i => if p i then bitsetSet set (f i) else set) set

def BracketElem.isClass : BracketElem → Bool
  | .equivClass _ | .charClass _ => true
  | _ => false

def buildRangeExp (syn : RegSyntax) (sbcset : Bitset) (startElem endElem : BracketElem) :
    Except RegErrcode Bitset := do
  -- equivalence classes and character classes cannot be a range start or end
  if startElem.isClass || endElem.isClass then .error REG_ERANGE
  else do
    let startWc ← rangeByte startElem
    let endWc ← rangeByte endElem
    if syn.has RE_NO_EMPTY_RANGES && endWc < startWc then .error REG_ERANGE
    else .ok (bitsetAdd sbcset (fun wc => startWc ≤ wc && wc ≤ endWc) id)

/-- `build_equiv_class` and `build_collating_symbol`: the name must be of one byte. -/
def buildOneByte (sbcset : Bitset) (name : List UInt8) : Except RegErrcode Bitset :=
  match cstr name with
  | [ch] => .ok (bitsetSet sbcset ch.toNat)
  | _ => .error REG_ECOLLATE

/-- The function that a class name stands for. -/
def ctypeOf (name : List UInt8) : Option Ctype :=
  if name = chars "alnum" then some .isalnum
  else if name = chars "cntrl" then some .iscntrl
  else if name = chars "lower" then some .islower
  else if name = chars "space" then some .isspace
  else if name = chars "alpha" then some .isalpha
  else if name = chars "digit" then some .isdigit
  else if name = chars "print" then some .isprint
  else if name = chars "upper" then some .isupper
  else if name = chars "blank" then some .isblank
  else if name = chars "graph" then some .isgraph
  else if name = chars "punct" then some .ispunct
  else if name = chars "xdigit" then some .isxdigit
  else none

variable (loc : Locale) (trans : Option (UInt8 → UInt8))

def buildCharclass (sbcset : Bitset) (className : List UInt8) (syn : RegSyntax) :
    Except RegErrcode Bitset :=
  let name := if syn.has RE_ICASE && (className = chars "upper" || className = chars "lower") then
      chars "alpha"
    else className
  match ctypeOf name with
  | none => .error REG_ECTYPE
  | some ctype =>
    .ok (bitsetAdd sbcset (fun i => loc.ctype ctype (UInt8.ofNat i))
      fun i => (trans.elim (UInt8.ofNat i) fun trans => trans (UInt8.ofNat i)).toNat)

/-- An element that is not the start of a range. -/
def buildElem (syn : RegSyntax) (sbcset : Bitset) : BracketElem → Except RegErrcode Bitset
  | .sbChar ch => .ok (bitsetSet sbcset ch.toNat)
  | .equivClass name => buildOneByte sbcset name
  | .collSym name => buildOneByte sbcset name
  | .charClass name => buildCharclass loc trans sbcset (cstr name) syn

/-- The variables of the loop of `parse_bracket_exp`. -/
structure Bracket where
  sbcset : Bitset
  token : Token
  tokenLen : Nat
  input : Input

/-- What is behind an element: the token behind a hyphen, if it starts a range. -/
def rangeAhead (syn : RegSyntax) (startElem : BracketElem) (s : Bracket) :
    Except RegErrcode (Bracket × Option (Token × Nat)) :=
  -- do not check for ranges if we know they are not allowed
  if startElem.isClass then .ok (s, none)
  else if s.token.type = .endOfRe then .error REG_EBRACK
  else if s.token.type = .opCharsetRange then
    let (token2, tokenLen2, input) :=
      peekTokenBracket syn { type := .nonType } (s.input.skip s.tokenLen)
    if token2.type = .endOfRe then .error REG_EBRACK
    -- the last hyphen is a normal character
    else if token2.type = .opCloseBracket then
      .ok ({ s with token := { s.token with type := .character } }, none)
    else .ok ({ s with input := input }, some (token2, tokenLen2))
  else .ok (s, none)

/-- The element or the range is added to the set. -/
def addElem (syn : RegSyntax) (startElem : BracketElem) (s : Bracket) :
    Option (Token × Nat) → Except RegErrcode Bracket
  | none => do .ok { s with sbcset := ← buildElem loc trans syn s.sbcset startElem }
  | some (token2, tokenLen2) => do
    let (endElem, input) ← parseBracketElement syn token2 tokenLen2 true s.input
    let (token, tokenLen, input) := peekTokenBracket syn s.token input
    let sbcset ← buildRangeExp syn s.sbcset startElem endElem
    .ok ⟨sbcset, token, tokenLen, input⟩

/-- One pass of the loop. -/
def bracketPass (syn : RegSyntax) (firstRound : Bool) (s : Bracket) : Except RegErrcode Bracket := do
  let (startElem, input) ← parseBracketElement syn s.token s.tokenLen firstRound s.input
  let (token, tokenLen, input) := peekTokenBracket syn s.token input
  let (s, range) ← rangeAhead syn startElem ⟨s.sbcset, token, tokenLen, input⟩
  let s ← addElem loc trans syn startElem s range
  if s.token.type = .endOfRe then .error REG_EBRACK else .ok s

def bracketLoop (syn : RegSyntax) : Nat → Bool → Bracket → Option (Except RegErrcode Bracket)
  | 0, _, _ => none
  | n + 1, firstRound, s =>
    match bracketPass loc trans syn firstRound s with
    | .error err => some (.error err)
    | .ok s =>
      if s.token.type = .opCloseBracket then some (.ok { s with input := s.input.skip s.tokenLen })
      else bracketLoop syn n false s

/-- The start of `parse_bracket_exp`: whether the list is one of those that do not match, and the
    first token. -/
def bracketStart (syn : RegSyntax) (token : Token) (input : Input) :
    Except RegErrcode (Bool × Bracket) := do
  let (token, tokenLen, input) := peekTokenBracket syn token input
  if token.type = .endOfRe then .error REG_BADPAT
  else if token.type = .opNonMatchList then
    let sbcset := if syn.has RE_HAT_LISTS_NOT_NEWLINE then bitsetSet bitsetEmpty 0x0a
      else bitsetEmpty
    let (token, tokenLen, input) := peekTokenBracket syn token (input.skip tokenLen)
    if token.type = .endOfRe then .error REG_BADPAT else .ok (true, ⟨sbcset, token, tokenLen, input⟩)
  else .ok (false, ⟨bitsetEmpty, token, tokenLen, input⟩)

/-- The set of a bracket expression, and what is behind it. -/
def bracketSet (syn : RegSyntax) (token : Token) (input : Input) :
    Option (Except RegErrcode Bracket) :=
  match bracketStart syn token input with
  | .error err => some (.error err)
  | .ok (nonMatch, s) => do
    -- the first closing bracket is a normal character
    let s := { s with token :=
      if s.token.type = .opCloseBracket then { s.token with type := .character } else s.token }
    let r ← bracketLoop loc trans syn (s.input.rest.length + 1) true s
    some (r.map fun s => { s with sbcset := if nonMatch then bitsetNot s.sbcset else s.sbcset })

/-! ## The reader -/

variable (ok okSet : Nat → Bool)

/-- The tree of a bracket: one token with the set. -/
def bracketTree (dfa : Dfa) (sbcset : Bitset) : Option (Dfa × Option Nat × RegErrcode) := do
  let (dfa, tree) ← createTokenTree ok dfa none none
    { type := .simpleBracket, opr := sbcset.toNat }
  some (dfa, tree, if tree = none then REG_ESPACE else REG_NOERROR)

/-- `parse_bracket_exp`; after an error nothing reads the token and the string. -/
def parseBracketExp (syn : RegSyntax) (dfa : Dfa) (token : Token) (input : Input) :
    Option (Dfa × Token × Input × Option Nat × RegErrcode) :=
  if !okSet dfa.trees.length then some (dfa, token, input, none, REG_ESPACE)
  else do
    match ← bracketSet loc trans syn token input with
    | .error err => some (dfa, token, input, none, err)
    | .ok s => do
      let (dfa, tree, err) ← bracketTree ok dfa s.sbcset
      some (dfa, s.token, s.input, tree, err)

/-- `build_charclass_op`: the class, the bytes added to it, and whether the list is one of those that
    do not match. -/
def buildCharclassOp (className extra : List UInt8) (nonMatch : Bool) (dfa : Dfa) :
    Option (Dfa × Option Nat × RegErrcode) :=
  if !okSet dfa.trees.length then some (dfa, none, REG_ESPACE)
  else
    match buildCharclass loc trans bitsetEmpty className 0 with
    | .error err => some (dfa, none, err)
    | .ok sbcset =>
      let sbcset := extra.foldl (fun set c => bitsetSet set c.toNat) sbcset
      bracketTree ok dfa (if nonMatch then bitsetNot sbcset else sbcset)

/-- The calls of `build_charclass_op` in `parse_expression`. -/
def charclassTree (type : TokenType) (dfa : Dfa) : Option (Dfa × Option Nat × RegErrcode) :=
  if type = .opWord ∨ type = .opNotword then
    buildCharclassOp loc trans ok okSet (chars "alnum") (chars "_") (type = .opNotword) dfa
  else buildCharclassOp loc trans ok okSet (chars "space") [] (type = .opNotspace) dfa

/-! ## The reader goes forward -/

variable {loc : Locale} {trans : Option (UInt8 → UInt8)} {ok okSet : Nat → Bool} {syn : RegSyntax}

@[simp] theorem curIdx_skip : ∀ (n : Nat) (input : Input),
    (input.skip n).curIdx = input.curIdx + n
  | 0, _ => rfl
  | n + 1, ⟨_, _, []⟩ => rfl
  | n + 1, ⟨curIdx, _, _ :: _⟩ => by
    rw [Input.skip, curIdx_skip]
    exact Nat.add_right_comm curIdx 1 n

/-- At the end of the string there is no token, and every token has a byte. -/
theorem peekToken_pos {token : Token} {prev : Option UInt8} {bytes : List Byte}
    (h : (peekToken syn token prev bytes).1.type ≠ .endOfRe) :
    0 < (peekToken syn token prev bytes).2 := by
  cases bytes with
  | nil => exact absurd rfl h
  | cons byte rest =>
    unfold peekToken
    split
    · cases rest with
      | nil => exact Nat.one_pos
      | cons next rest => exact Nat.two_pos
    · exact Nat.one_pos

theorem fetch_le (caret : Bool) (token : Token) (input : Input) :
    input.curIdx ≤ (fetch syn caret token input).2.curIdx := by
  rw [fetch, curIdx_skip]
  exact Nat.le_add_right _ _

theorem fetch_lt (caret : Bool) (token : Token) (input : Input)
    (h : (fetch syn caret token input).1.type ≠ .endOfRe) :
    input.curIdx < (fetch syn caret token input).2.curIdx := by
  rw [fetch, curIdx_skip]
  exact Nat.lt_add_of_pos_right (peekToken_pos h)

theorem peekTokenBracket_le (token : Token) (input : Input) :
    input.curIdx ≤ (peekTokenBracket syn token input).2.2.curIdx := by
  unfold peekTokenBracket
  split
  · exact Nat.le_refl _
  · dsimp only
    split
    · simp
    split
    · split <;> exact Nat.le_refl _
    split
    · exact Nat.le_refl _
    split
    · exact Nat.le_refl _
    split <;> exact Nat.le_refl _

theorem parseBracketElement_le {token : Token} {tokenLen : Nat} {acceptHyphen : Bool}
    {input input' : Input} {elem : BracketElem}
    (h : parseBracketElement syn token tokenLen acceptHyphen input = .ok (elem, input')) :
    input.curIdx ≤ input'.curIdx := by
  have hskip : input.curIdx ≤ (input.skip tokenLen).curIdx := by simp
  unfold parseBracketElement at h
  dsimp only at h
  split at h
  · obtain ⟨name, -, h⟩ := bind_eq_ok h
    obtain ⟨-, rfl⟩ := Prod.mk.inj (Except.ok.inj h)
    simp only [curIdx_skip]
    omega
  split at h
  · split at h
    · cases h
    · obtain ⟨-, rfl⟩ := Prod.mk.inj (Except.ok.inj h)
      exact hskip.trans (peekTokenBracket_le _ _)
  · obtain ⟨-, rfl⟩ := Prod.mk.inj (Except.ok.inj h)
    exact hskip

theorem rangeAhead_le {startElem : BracketElem} {s s' : Bracket} {range : Option (Token × Nat)}
    (h : rangeAhead syn startElem s = .ok (s', range)) : s.input.curIdx ≤ s'.input.curIdx := by
  unfold rangeAhead at h
  split at h
  · obtain ⟨rfl, -⟩ := Prod.mk.inj (Except.ok.inj h)
    exact Nat.le_refl _
  split at h
  · cases h
  split at h
  · dsimp only at h
    split at h
    · cases h
    split at h
    · obtain ⟨rfl, -⟩ := Prod.mk.inj (Except.ok.inj h)
      exact Nat.le_refl _
    · obtain ⟨rfl, -⟩ := Prod.mk.inj (Except.ok.inj h)
      refine Nat.le_trans ?_ (peekTokenBracket_le _ _)
      simp
  · obtain ⟨rfl, -⟩ := Prod.mk.inj (Except.ok.inj h)
    exact Nat.le_refl _

theorem addElem_le {startElem : BracketElem} {s s' : Bracket} {range : Option (Token × Nat)}
    (h : addElem loc trans syn startElem s range = .ok s') :
    s.input.curIdx ≤ s'.input.curIdx := by
  cases range with
  | none =>
    obtain ⟨sbcset, -, h⟩ := bind_eq_ok h
    obtain rfl := Except.ok.inj h
    exact Nat.le_refl _
  | some next =>
    obtain ⟨⟨endElem, input⟩, helem, h⟩ := bind_eq_ok h
    obtain ⟨sbcset, -, h⟩ := bind_eq_ok h
    obtain rfl := Except.ok.inj h
    exact (parseBracketElement_le helem).trans (peekTokenBracket_le _ _)

theorem bracketPass_le {firstRound : Bool} {s s' : Bracket}
    (h : bracketPass loc trans syn firstRound s = .ok s') :
    s.input.curIdx ≤ s'.input.curIdx := by
  obtain ⟨⟨startElem, input⟩, helem, h⟩ := bind_eq_ok h
  obtain ⟨⟨s₁, range⟩, hahead, h⟩ := bind_eq_ok h
  obtain ⟨s₂, hadd, h⟩ := bind_eq_ok h
  have hle : s.input.curIdx ≤ s₂.input.curIdx :=
    ((parseBracketElement_le helem).trans (peekTokenBracket_le s.token input)).trans
      ((rangeAhead_le hahead).trans (addElem_le hadd))
  split at h
  · cases h
  · obtain rfl := Except.ok.inj h
    exact hle

theorem bracketLoop_le : ∀ {n : Nat} {firstRound : Bool} {s s' : Bracket},
    bracketLoop loc trans syn n firstRound s = some (.ok s') →
    s.input.curIdx ≤ s'.input.curIdx
  | 0, _, _, _, h => by cases h
  | n + 1, firstRound, s, s', h => by
    rw [bracketLoop] at h
    split at h
    · cases Option.some.inj h
    · next s₁ hpass =>
      have hle := bracketPass_le hpass
      split at h
      · obtain rfl := Except.ok.inj (Option.some.inj h)
        simp only [curIdx_skip]
        omega
      · exact hle.trans (bracketLoop_le h)

theorem bracketStart_le {token : Token} {input : Input} {nonMatch : Bool} {s : Bracket}
    (h : bracketStart syn token input = .ok (nonMatch, s)) : input.curIdx ≤ s.input.curIdx := by
  have hle := @peekTokenBracket_le syn token input
  unfold bracketStart at h
  dsimp only at h
  split at h
  · cases h
  split at h
  · split at h
    · cases h
    · obtain ⟨-, rfl⟩ := Prod.mk.inj (Except.ok.inj h)
      refine hle.trans (Nat.le_trans ?_ (peekTokenBracket_le _ _))
      simp
  · obtain ⟨-, rfl⟩ := Prod.mk.inj (Except.ok.inj h)
    exact hle

theorem bracketTree_err {dfa dfa' : Dfa} {sbcset : Bitset} {tree : Option Nat} {err : RegErrcode}
    (h : bracketTree ok dfa sbcset = some (dfa', tree, err)) (herr : err ≠ REG_NOERROR) :
    tree = none := by
  obtain ⟨⟨dfa₁, tree₁⟩, -, h⟩ := Option.bind_eq_some_iff.mp h
  simp only [Option.some.injEq, Prod.mk.injEq] at h
  obtain ⟨-, rfl, rfl⟩ := h
  by_contra hne
  exact herr (if_neg hne)

theorem bracketTree_refs {dfa dfa' : Dfa} {sbcset : Bitset} {tree : Option Nat} {err : RegErrcode}
    (h : bracketTree ok dfa sbcset = some (dfa', tree, err)) : SameRefs dfa.trees dfa'.trees := by
  obtain ⟨⟨dfa₁, tree₁⟩, hcreate, h⟩ := Option.bind_eq_some_iff.mp h
  simp only [Option.some.injEq, Prod.mk.injEq] at h
  obtain ⟨rfl, -, -⟩ := h
  exact createTokenTree_sameRefs (by simp) (by simp) _ hcreate

theorem bracketSet_le {token : Token} {input : Input} {s : Bracket}
    (h : bracketSet loc trans syn token input = some (.ok s)) : input.curIdx ≤ s.input.curIdx := by
  unfold bracketSet at h
  split at h
  · cases Option.some.inj h
  · next nonMatch s₁ hstart =>
    have hle := bracketStart_le hstart
    obtain ⟨r, hloop, h⟩ := Option.bind_eq_some_iff.mp h
    cases r with
    | error err => cases Option.some.inj h
    | ok s₂ =>
      obtain rfl := Except.ok.inj (Option.some.inj h)
      have hle' := bracketLoop_le hloop
      exact hle.trans hle'

/-- Behind a failed call the trees are those that there were. -/
theorem parseBracketExp_ok {dfa dfa' : Dfa} {token token' : Token} {input input' : Input}
    {tree : Option Nat} {err : RegErrcode}
    (h : parseBracketExp loc trans ok okSet syn dfa token input =
      some (dfa', token', input', tree, err)) :
    input.curIdx ≤ input'.curIdx ∧ (err ≠ REG_NOERROR → tree = none) ∧
      SameRefs dfa.trees dfa'.trees := by
  unfold parseBracketExp at h
  split at h
  · simp only [Option.some.injEq, Prod.mk.injEq] at h
    obtain ⟨rfl, -, rfl, rfl, -⟩ := h
    exact ⟨Nat.le_refl _, fun _ => rfl, .refl _⟩
  · obtain ⟨r, hset, h⟩ := Option.bind_eq_some_iff.mp h
    cases r with
    | error err =>
      simp only [Option.some.injEq, Prod.mk.injEq] at h
      obtain ⟨rfl, -, rfl, rfl, -⟩ := h
      exact ⟨Nat.le_refl _, fun _ => rfl, .refl _⟩
    | ok s =>
      obtain ⟨⟨dfa₁, tree₁, err₁⟩, htree, h⟩ := Option.bind_eq_some_iff.mp h
      simp only [Option.some.injEq, Prod.mk.injEq] at h
      obtain ⟨rfl, -, rfl, rfl, rfl⟩ := h
      exact ⟨bracketSet_le hset, bracketTree_err htree, bracketTree_refs htree⟩

theorem buildCharclassOp_ok {className extra : List UInt8} {nonMatch : Bool} {dfa dfa' : Dfa}
    {tree : Option Nat} {err : RegErrcode}
    (h : buildCharclassOp loc trans ok okSet className extra nonMatch dfa = some (dfa', tree, err)) :
    (err ≠ REG_NOERROR → tree = none) ∧ SameRefs dfa.trees dfa'.trees := by
  unfold buildCharclassOp at h
  split at h
  · simp only [Option.some.injEq, Prod.mk.injEq] at h
    obtain ⟨rfl, rfl, -⟩ := h
    exact ⟨fun _ => rfl, .refl _⟩
  · split at h
    · simp only [Option.some.injEq, Prod.mk.injEq] at h
      obtain ⟨rfl, rfl, -⟩ := h
      exact ⟨fun _ => rfl, .refl _⟩
    · exact ⟨bracketTree_err h, bracketTree_refs h⟩

theorem charclassTree_ok {type : TokenType} {dfa dfa' : Dfa} {tree : Option Nat} {err : RegErrcode}
    (h : charclassTree loc trans ok okSet type dfa = some (dfa', tree, err)) :
    (err ≠ REG_NOERROR → tree = none) ∧ SameRefs dfa.trees dfa'.trees := by
  unfold charclassTree at h
  split at h
  · exact buildCharclassOp_ok h
  · exact buildCharclassOp_ok h

variable (loc trans ok okSet syn)

/-- The reader of a single-byte locale, where each byte is the first of a character. -/
def singleByte : Reader Input where
  curIdx := Input.curIdx
  fetchToken := fetch syn
  partialByte := fun _ => false
  parseBracketExp := parseBracketExp loc trans ok okSet syn
  buildCharclassOp := charclassTree loc trans ok okSet
  fetchToken_le := fetch_le
  fetchToken_lt := fetch_lt
  parseBracketExp_le := fun h => (parseBracketExp_ok h).1
  parseBracketExp_err := fun h => (parseBracketExp_ok h).2.1
  buildCharclassOp_err := fun h => (charclassTree_ok h).1
  fetchToken_partial := fun _ _ _ h => absurd h Bool.false_ne_true
  parseBracketExp_refs := fun h => (parseBracketExp_ok h).2.2
  buildCharclassOp_refs := fun h => (charclassTree_ok h).2

end Librecompat.Regcomp
