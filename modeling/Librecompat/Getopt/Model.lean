/-
  `_getopt_internal_r` with `exchange`, `process_long_option` and `_getopt_initialize`.

  `argv` is the array of elements that may be accessed, `none` for a null pointer. A pointer into
  a string is the rest of the string from there, without its NUL. A call gives `none` when it
  reads outside of `argv` or of a string or goes through a null pointer.

  `World` is what a call reads and writes: `argv`, the `struct _getopt_data`, and what it leaves
  behind: its diagnosis, the value stored in `*longind` and the value stored through `flag`. The
  diagnosis is printed when `opterr` says so and the option string does not start with a colon.
-/
import Librecompat.Darwin
import Librecompat.Lib.Loop
import Librecompat.Lib.Swap

namespace Librecompat.Getopt

open Librecompat.Lib

abbrev Str := List UInt8

/-- `struct option`; `flag` is the address of an `int`. -/
structure LongOption where
  name : CString
  hasArg : Int
  flag : Option Nat
  val : Int
  deriving DecidableEq

inductive Order
  | requireOrder
  | permute
  | returnInOrder
  deriving DecidableEq, Repr

/-- `struct _getopt_data` -/
structure GetoptData where
  optind : Nat
  opterr : Bool
  optopt : Int
  optarg : Option Str
  initialized : Bool
  nextchar : Option Str
  ordering : Order
  firstNonopt : Nat
  lastNonopt : Nat
  deriving DecidableEq, Repr

/-- The arguments that stay the same from call to call; `posixlyEnv` says whether the environment
    has `POSIXLY_CORRECT`, `longind` whether that pointer is set. -/
structure Args where
  argc : Nat
  optstring : CString
  longopts : Option (List LongOption)
  longind : Bool
  longOnly : Bool
  posixlyCorrect : Bool
  posixlyEnv : Bool

/-- What a call complains about, with the strings that go into the message. -/
inductive Diagnosis
  | ambiguous (pfx text : Str) (possibilities : Option (List Str))
  | unrecognized (pfx text : Str)
  | doesntAllow (pfx name : Str)
  | requires (pfx name : Str)
  | invalid (c : UInt8)
  | requiresShort (c : UInt8)
  deriving DecidableEq

/-- The text that is printed behind `argv[0]`. -/
def Diagnosis.text : Diagnosis → Str
  | .ambiguous pfx text none => chars ": option '" ++ pfx ++ text ++ chars "' is ambiguous\n"
  | .ambiguous pfx text (some names) =>
    chars ": option '" ++ pfx ++ text ++ chars "' is ambiguous; possibilities:" ++
      names.flatMap (fun name => chars " '" ++ pfx ++ name ++ chars "'") ++ chars "\n"
  | .unrecognized pfx text => chars ": unrecognized option '" ++ pfx ++ text ++ chars "'\n"
  | .doesntAllow pfx name =>
    chars ": option '" ++ pfx ++ name ++ chars "' doesn't allow an argument\n"
  | .requires pfx name => chars ": option '" ++ pfx ++ name ++ chars "' requires an argument\n"
  | .invalid c => chars ": invalid option -- '" ++ [c] ++ chars "'\n"
  | .requiresShort c => chars ": option requires an argument -- '" ++ [c] ++ chars "'\n"

structure World where
  argv : List (Option CString)
  data : GetoptData
  diag : Option Diagnosis
  longind : Option Nat
  store : Option (Nat × Int)

/-- `strchr (s, c)`: the string from the first `c` on. -/
def strchr (s : Str) (c : UInt8) : Option Str :=
  if c = 0 then some []
  else
    match s.dropWhile (· ≠ c) with
    | [] => none
    | temp => some temp

theorem strchr_eq_none_iff {s : Str} {c : UInt8} : strchr s c = none ↔ c ≠ 0 ∧ c ∉ s := by
  unfold strchr
  by_cases h0 : c = 0
  · simp [h0]
  · rw [if_neg h0]
    have hdrop : s.dropWhile (· ≠ c) = [] ↔ c ∉ s := by
      rw [List.dropWhile_eq_nil_iff]
      constructor
      · intro h hc
        simpa using h c hc
      · intro h x hx
        exact decide_eq_true fun heq => h (heq ▸ hx)
    rw [← hdrop]
    cases s.dropWhile (· ≠ c) <;> simp [h0]

/-! ## exchange -/

structure ExchangeState where
  argv : List (Option CString)
  bottom : Nat
  middle : Nat
  top : Nat

/-- One pass of `while (top > middle && middle > bottom)`. -/
def exchangeBody (s : ExchangeState) :
    ExchangeState ⊕ Option (List (Option CString)) :=
  if s.top > s.middle ∧ s.middle > s.bottom then
    if s.top - s.middle > s.middle - s.bottom then
      let len := s.middle - s.bottom
      match swapRange s.argv s.bottom (s.top - (s.middle - s.bottom)) len with
      | none => .inr none
      | some argv => .inl { s with argv := argv, top := s.top - len }
    else
      let len := s.top - s.middle
      match swapRange s.argv s.bottom s.middle len with
      | none => .inr none
      | some argv => .inl { s with argv := argv, bottom := s.bottom + len }
  else .inr (some s.argv)

def exchange (w : World) : Option World := do
  let d := w.data
  let argv ← (loop exchangeBody (d.optind + 1)
    { argv := w.argv, bottom := d.firstNonopt, middle := d.lastNonopt, top := d.optind }).join
  some { w with argv := argv,
                data := { d with firstNonopt := d.firstNonopt + (d.optind - d.lastNonopt),
                                 lastNonopt := d.optind } }

/-! ## process_long_option -/

/-- What the two searches through `longopts` come to. -/
inductive LongMatch
  | found (p : LongOption) (index : Nat)
  | ambiguous (possibilities : Option (List Str))
  | unknown

/-- The variables of the search for abbreviations; `ambigSet` is `ambig_set`. -/
structure Abbrev where
  pfound : Option (LongOption × Nat)
  ambigSet : Option (List Bool)
  ambigFallback : Bool

/-- The candidate is not the same option as the first one found. -/
def conflicts (longOnly : Bool) (pfound p : LongOption) : Prop :=
  longOnly ∨ pfound.hasArg ≠ p.hasArg ∨ pfound.flag ≠ p.flag ∨ pfound.val ≠ p.val

instance (longOnly : Bool) (pfound p : LongOption) : Decidable (conflicts longOnly pfound p) :=
  inferInstanceAs (Decidable (_ ∨ _))

/-- The block `if (!ambig_fallback)` for a second or later match. -/
def Abbrev.record (printErrors mallocOk : Bool) (nOptions indfound optionIndex : Nat)
    (s : Abbrev) : Abbrev :=
  if s.ambigFallback then s
  else
    let s :=
      if ¬ printErrors then { s with ambigFallback := true }
      else
        match s.ambigSet with
        | some _ => s
        | none =>
          if mallocOk then
            { s with ambigSet := some ((List.replicate nOptions false).set indfound true) }
          else { s with ambigFallback := true }
    { s with ambigSet := s.ambigSet.map fun set => set.set optionIndex true }

/-- One pass of the loop that looks for abbreviations. `strncmp` with the length of a string
    without NULs asks whether that is how the name starts. -/
def abbrevStep (longOnly printErrors mallocOk : Bool) (nOptions : Nat) (name : Str) (s : Abbrev)
    (o : LongOption × Nat) : Abbrev :=
  if name.isPrefixOf o.1.name.1 then
    match s.pfound with
    | none => { s with pfound := some o }
    | some found =>
      if conflicts longOnly found.1 o.1 then s.record printErrors mallocOk nOptions found.2 o.2
      else s
  else s

/-- The names of the options marked in `ambig_set`. -/
def possibilities (longopts : List LongOption) (set : List Bool) : List Str :=
  ((longopts.zip set).filter (·.2)).map fun o => o.1.name.1

def matchLong (longopts : List LongOption) (longOnly printErrors mallocOk : Bool) (name : Str) :
    LongMatch :=
  match longopts.zipIdx.find? fun o => o.1.name.1 = name with
  | some (p, index) => .found p index
  | none =>
    let s := longopts.zipIdx.foldl
      (abbrevStep longOnly printErrors mallocOk longopts.length name) ⟨none, none, false⟩
    if s.ambigSet.isSome ∨ s.ambigFallback then
      .ambiguous (if s.ambigFallback then none else s.ambigSet.map (possibilities longopts))
    else
      match s.pfound with
      | some (p, index) => .found p index
      | none => .unknown

/-- The character codes that getopt returns or compares with. -/
def question : Int := 63
def colon : Int := 58

/-- `optstring[0] == ':' ? ':' : '?'` -/
def missingCode (optstring : Str) : Int := if optstring.head? = some 58 then colon else question

variable (a : Args) (mallocOk : Bool) (optstring : Str) (printErrors : Bool)

def processLongOption (longOnly : Bool) (pfx : Str) (longopts : List LongOption) (w : World) :
    Option (World × Int) := do
  let nextchar ← w.data.nextchar
  let name := nextchar.takeWhile (· ≠ 61)
  let nameend := nextchar.dropWhile (· ≠ 61)
  match matchLong longopts longOnly printErrors mallocOk name with
  | .ambiguous names =>
    some ({ w with diag := some (.ambiguous pfx nextchar names),
                   data := { w.data with nextchar := some [], optind := w.data.optind + 1,
                                         optopt := 0 } }, question)
  | .unknown =>
    let isError ←
      if ¬ longOnly then some true
      else do
        let e ← (← w.argv[w.data.optind]?)
        if e.1 = [] then none
        else some (e.1[1]? = some 45 ∨ strchr optstring (nextchar.headD 0) = none)
    if isError then
      some ({ w with diag := some (.unrecognized pfx nextchar),
                     data := { w.data with nextchar := none, optind := w.data.optind + 1,
                                           optopt := 0 } }, question)
    else some (w, -1)
  | .found p index =>
    let d := { w.data with optind := w.data.optind + 1, nextchar := none }
    let finish (d : GetoptData) : Option (World × Int) :=
      let w := { w with longind := if a.longind then some index else w.longind }
      match p.flag with
      | some flag => some ({ w with data := d, store := some (flag, p.val) }, 0)
      | none => some ({ w with data := { d with optopt := p.val } }, p.val)
    if nameend ≠ [] then
      if p.hasArg ≠ 0 then finish { d with optarg := some nameend.tail }
      else
        some ({ w with diag := some (.doesntAllow pfx p.name.1),
                       data := { d with optopt := p.val } }, question)
    else if p.hasArg = 1 then
      if d.optind < a.argc then do
        let arg ← w.argv[d.optind]?
        finish { d with optarg := arg.map (·.1), optind := d.optind + 1 }
      else
        some ({ w with diag := some (.requires pfx p.name.1),
                       data := { d with optopt := p.val } }, missingCode optstring)
    else finish d

/-! ## Short options -/

/-- `d->__nextchar++`, where `rest` follows the character; `++d->optind` behind the last one. -/
def passChar (rest : Str) (d : GetoptData) : GetoptData :=
  { d with nextchar := some rest, optind := if rest = [] then d.optind + 1 else d.optind }

/-- The branches for an option that takes an argument, in the same element or the next one. -/
def requiredArg (c : UInt8) (rest : Str) (w : World) : Option (World × Int) := do
  let d := w.data
  if rest ≠ [] then
    some ({ w with data := { d with optarg := some rest, optind := d.optind + 1, nextchar := none,
                                    optopt := charVal c } }, charVal c)
  else if d.optind = a.argc then
    let code := missingCode optstring
    some ({ w with diag := some (.requiresShort c),
                   data := { d with nextchar := none, optopt := code } }, code)
  else
    let arg ← w.argv[d.optind]?
    some ({ w with data := { d with optarg := arg.map (·.1), optind := d.optind + 1,
                                    nextchar := none, optopt := charVal c } }, charVal c)

/-- `-W foo` and `-Wfoo`, treated as `--foo`. -/
def longAfterW (c : UInt8) (rest : Str) (longopts : List LongOption) (w : World) :
    Option (World × Int) := do
  let d := w.data
  if rest ≠ [] then
    processLongOption a mallocOk optstring printErrors false (chars "-W ") longopts
      { w with data := { d with nextchar := some rest, optarg := none } }
  else if d.optind = a.argc then
    some ({ w with diag := some (.requiresShort c), data := { d with optopt := charVal c } },
      missingCode optstring)
  else
    let arg ← w.argv[d.optind]?
    processLongOption a mallocOk optstring printErrors false (chars "-W ") longopts
      { w with data := { d with nextchar := arg.map (·.1), optarg := none } }

/-- The last block of `_getopt_internal_r`. -/
def shortOption (w : World) : Option (World × Int) := do
  match ← w.data.nextchar with
  -- behind the NUL there is nothing to read
  | [] => none
  | c :: rest =>
    let d := passChar rest w.data
    let w := { w with data := d }
    let invalid := some ({ w with diag := some (.invalid c),
                                  data := { d with optopt := charVal c } }, question)
    match strchr optstring c with
    | none => invalid
    | some temp =>
      if c = 58 ∨ c = 59 then invalid
      else
        match a.longopts with
        | some longopts =>
          if c = 87 ∧ temp[1]? = some 59 then
            longAfterW a mallocOk optstring printErrors c rest longopts w
          else ordinary c rest temp w
        | none => ordinary c rest temp w
where
  /-- The option is not `-W`. -/
  ordinary (c : UInt8) (rest temp : Str) (w : World) : Option (World × Int) :=
    let d := w.data
    if temp[1]? = some 58 then
      if temp[2]? = some 58 then
        if rest ≠ [] then
          some ({ w with data := { d with optarg := some rest, optind := d.optind + 1,
                                          nextchar := none, optopt := charVal c } }, charVal c)
        else
          some ({ w with data := { d with optarg := none, nextchar := none,
                                          optopt := charVal c } }, charVal c)
      else requiredArg a optstring c rest w
    else some ({ w with data := { d with optopt := charVal c } }, charVal c)

/-! ## Long options -/

/-- The text of `e` is looked up as a long option behind a single dash. -/
def looksLong (e : CString) : Prop :=
  a.longOnly ∧ (e.1[2]?.isSome ∨ strchr optstring (e.1.getD 1 0) = none)

instance (e : CString) : Decidable (looksLong a optstring e) :=
  inferInstanceAs (Decidable (_ ∧ _))

/-- The block `if (longopts && argv[d->optind])`; `none` in the result when it falls through to
    the short options. `e` is `argv[d->optind]`. -/
def longOption (e : CString) (w : World) : Option (World × Option Int) :=
  match a.longopts with
  | none => some (w, none)
  | some longopts =>
    if e.1[1]? = some 45 then
      (processLongOption a mallocOk optstring printErrors a.longOnly (chars "--") longopts
        { w with data := { w.data with nextchar := some (e.1.drop 2) } }).map
          fun (w, code) => (w, some code)
    else if looksLong a optstring e then
      (processLongOption a mallocOk optstring printErrors a.longOnly (chars "-") longopts
        { w with data := { w.data with nextchar := some (e.1.drop 1) } }).map
          fun (w, code) => (w, if code ≠ -1 then some code else none)
    else some (w, none)

/-- Skip the initial punctuation of the element that is now at `optind`, and go on with the block
    for short options. -/
def shortElement (w : World) : Option (World × Int) := do
  match ← w.argv[w.data.optind]? with
  | none =>
    shortOption a mallocOk optstring printErrors { w with data := { w.data with nextchar := none } }
  | some e =>
    if e.1 = [] then none
    else
      shortOption a mallocOk optstring printErrors
        { w with data := { w.data with nextchar := some e.1.tail } }

/-- The part of `_getopt_internal_r` for an element `e` that is an option. -/
def optionElement (e : CString) (w : World) : Option (World × Int) := do
  match ← longOption a mallocOk optstring printErrors e w with
  | (w, some code) => some (w, code)
  | (w, none) => shortElement a mallocOk optstring printErrors w

/-! ## The elements of `argv` -/

/-- `NONOPTION_P` for a non-null element. -/
def isNonoption (e : CString) : Bool := e.1[0]? ≠ some 45 ∨ e.1[1]? = none

def dashes : Str := [45, 45]

/-- Give `first_nonopt` and `last_nonopt` rational values. -/
def clampNonopts (d : GetoptData) : GetoptData :=
  let d := if d.lastNonopt > d.optind then { d with lastNonopt := d.optind } else d
  if d.firstNonopt > d.optind then { d with firstNonopt := d.optind } else d

/-- One pass of `while (d->optind < argc && NONOPTION_P) d->optind++;` -/
def skipBody (argc : Nat) (argv : List (Option CString)) (optind : Nat) : Nat ⊕ Option Nat :=
  if optind < argc then
    match argv[optind]? with
    | none => .inr none
    | some none => .inr (some optind)
    | some (some e) => if isNonoption e then .inl (optind + 1) else .inr (some optind)
  else .inr (some optind)

def skipNonopts (argc : Nat) (argv : List (Option CString)) (optind : Nat) : Option Nat :=
  (loop (skipBody argc argv) (argc + 1) optind).join

/-- If we have just processed some options following some non-options, exchange them. -/
def moveOptions (w : World) : Option World :=
  let d := w.data
  if d.firstNonopt ≠ d.lastNonopt ∧ d.lastNonopt ≠ d.optind then exchange w
  else if d.lastNonopt ≠ d.optind then some { w with data := { d with firstNonopt := d.optind } }
  else some w

/-- The block `if (d->__ordering == PERMUTE)`. -/
def permuteNonopts (w : World) : Option World := do
  let w ← moveOptions w
  let optind ← skipNonopts a.argc w.argv w.data.optind
  some { w with data := { w.data with optind := optind, lastNonopt := optind } }

/-- The exchange in the block for the element `--`. -/
def moveDashes (w : World) : Option World :=
  let d := w.data
  if d.firstNonopt ≠ d.lastNonopt ∧ d.lastNonopt ≠ d.optind then exchange w
  else if d.firstNonopt = d.lastNonopt then
    some { w with data := { d with firstNonopt := d.optind } }
  else some w

/-- The block for the element `--`. -/
def skipDashes (w : World) : Option World := do
  if w.data.optind = a.argc then some w
  else
    match ← w.argv[w.data.optind]? with
    | none => some w
    | some e =>
      if e.1 = dashes then do
        let w ← moveDashes { w with data := { w.data with optind := w.data.optind + 1 } }
        some { w with data := { w.data with lastNonopt := a.argc, optind := a.argc } }
      else some w

/-- Stop the scan and back over any non-options that were skipped and permuted. -/
def stopScan (w : World) : World × Int :=
  let d := w.data
  ({ w with data := { d with
      optind := if d.firstNonopt ≠ d.lastNonopt then d.firstNonopt else d.optind } }, -1)

/-- The part of `_getopt_internal_r` behind the block for `--`. -/
def scanElement (w : World) : Option (World × Int) := do
  let d := w.data
  if d.optind = a.argc then some (stopScan w)
  else
    match ← w.argv[d.optind]? with
    | none =>
      if d.optind < a.argc then some (stopScan w)
      else shortOption a mallocOk optstring printErrors { w with data := { d with nextchar := none } }
    | some e =>
      if isNonoption e then
        if d.ordering = .requireOrder then some (w, -1)
        else some ({ w with data := { d with optarg := some e.1, optind := d.optind + 1 } }, 1)
      else optionElement a mallocOk optstring printErrors e w

/-- The part of `_getopt_internal_r` for the next element. -/
def nextElement (w : World) : Option (World × Int) :=
  let w := { w with data := clampNonopts w.data }
  (if w.data.ordering = .permute then permuteNonopts a w else some w).bind fun w =>
    (skipDashes a w).bind fun w => scanElement a mallocOk optstring printErrors w

/-! ## The call -/

/-- How to handle the ordering of options and nonoptions, and the option string behind the character
    that says so. -/
def chooseOrdering : Order × Str :=
  if a.optstring.1.head? = some 45 then (.returnInOrder, a.optstring.1.tail)
  else if a.optstring.1.head? = some 43 then (.requireOrder, a.optstring.1.tail)
  else if a.posixlyCorrect ∨ a.posixlyEnv then (.requireOrder, a.optstring.1)
  else (.permute, a.optstring.1)

def getoptInitialize (d : GetoptData) : GetoptData × Str :=
  let optind := if d.optind = 0 then 1 else d.optind
  ({ d with optind := optind, firstNonopt := optind, lastNonopt := optind, nextchar := none,
            ordering := (chooseOrdering a).1, initialized := true }, (chooseOrdering a).2)

/-- The data at the start of a call, initialized where that is due, and the option string that the
    call works with. -/
def prepare (d : GetoptData) : GetoptData × Str :=
  let d := { d with optarg := none }
  if d.optind = 0 ∨ ¬ d.initialized then getoptInitialize a d
  else if a.optstring.1.head? = some 45 ∨ a.optstring.1.head? = some 43 then
    (d, a.optstring.1.tail)
  else (d, a.optstring.1)

/-- `mallocOk` says whether the `malloc` of this call would succeed. -/
def getoptInternalR (argv : List (Option CString)) (d : GetoptData) : Option (World × Int) :=
  let w := { argv := argv, data := d, diag := none, longind := none, store := none }
  if a.argc < 1 then some (w, -1)
  else
    let (d, optstring) := prepare a d
    let printErrors : Bool := d.opterr && optstring.head? ≠ some 58
    let w := { w with data := d }
    if d.nextchar = none ∨ d.nextchar = some [] then
      nextElement a mallocOk optstring printErrors w
    else shortOption a mallocOk optstring printErrors w

/-- The option string behind the character that asks for an ordering. -/
def Args.shortopts : Str :=
  if a.optstring.1.head? = some 45 ∨ a.optstring.1.head? = some 43 then a.optstring.1.tail
  else a.optstring.1

/-- What is printed on `stderr`. -/
def World.message (w : World) : Option Str :=
  if w.data.opterr ∧ a.shortopts.head? ≠ some 58 then
    w.diag.map fun diag => ((w.argv.head?.join.map (·.1)).getD (chars "(null)")) ++ diag.text
  else none

end Librecompat.Getopt
