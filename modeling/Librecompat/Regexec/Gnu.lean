/-
  The GNU entry points: `re_compile_pattern`, `re_match`, `re_search` and their siblings for two
  strings.

  A call moves the end of its range inside the string, compiles the fastmap if that has not been
  done, asks for the registers that the caller can take, and stores them. What it keeps is that the
  fastmap, once it is compiled, misses no match, and that the arrays of the registers are as long
  as they are said to be (`Serves`). It returns the first match of its range, seen from its start
  (`reSearchStub_replies`). A length is only defined if the match is reported where it starts, which
  an empty one need not be (`Astray`).
-/
import Librecompat.Regexec.Calls

namespace Librecompat.Regexec

open Librecompat.Lib Librecompat.NodeSet Librecompat.Regcomp
open Librecompat.Regex

/-! ## re_registers -/

/-- `regs_allocated`. -/
inductive RegsAllocated where
  | unallocated
  | reallocate
  | fixed
  deriving DecidableEq

/-- `struct re_registers`. A cell is `none` until it is written; an array that was freed or could
    not be allocated has no cells. -/
structure Registers where
  numRegs : Nat
  starts : List (Option Int)
  ends : List (Option Int)
  deriving DecidableEq

variable (okStart okEnd : Bool)

/-- Room for `needRegs` elements, and whose the arrays are then. -/
def Registers.room (regs : Registers) (needRegs : Nat) :
    RegsAllocated → Registers × RegsAllocated
  | .unallocated =>
    if !okStart then ({ regs with starts := [] }, .unallocated)
    else if !okEnd then ({ regs with starts := [], ends := [] }, .unallocated)
    else (⟨needRegs, List.replicate needRegs none, List.replicate needRegs none⟩, .reallocate)
  | .reallocate =>
    if needRegs > regs.numRegs then
      if !okStart then (regs, .unallocated)
      else if !okEnd then ({ regs with starts := [] }, .unallocated)
      else (⟨needRegs, resizeCells needRegs regs.starts, resizeCells needRegs regs.ends⟩,
        .reallocate)
    else (regs, .reallocate)
  | .fixed => (regs, .fixed)

/-- `values`, and `-1` behind them in the other registers. -/
def copyRegs (numRegs : Nat) (values : List Int) (cells : List (Option Int)) :
    Option (List (Option Int)) :=
  let values := values ++ List.replicate (numRegs - values.length) (-1)
  if values.length ≤ cells.length then some (values.map some ++ cells.drop values.length) else none

/-- `re_copy_regs`. -/
def reCopyRegs (regs : Registers) (pmatch : List (Int × Int)) (nregs : Nat)
    (allocated : RegsAllocated) : Option (Registers × RegsAllocated) :=
  let (regs, allocated) := regs.room okStart okEnd (nregs + 1) allocated
  if allocated = .unallocated then some (regs, .unallocated)
  else do
    let starts ← copyRegs regs.numRegs ((pmatch.take nregs).map Prod.fst) regs.starts
    let ends ← copyRegs regs.numRegs ((pmatch.take nregs).map Prod.snd) regs.ends
    some (⟨regs.numRegs, starts, ends⟩, allocated)

/-- `re_set_registers`. -/
def reSetRegisters (numRegs : Nat) (starts ends : List (Option Int)) : Registers × RegsAllocated :=
  if numRegs ≠ 0 then (⟨numRegs, starts, ends⟩, .reallocate) else (⟨0, [], []⟩, .unallocated)

/-! ## re_search_stub -/

/-- `struct re_pattern_buffer`, with the fields that only the GNU functions use. -/
structure PatternBuffer where
  preg : Preg
  notBol : Bool
  notEol : Bool
  regsAllocated : RegsAllocated

/-- A pattern, what the searches have cached for it, and the registers of the caller. -/
structure Searcher where
  buffer : PatternBuffer
  machine : Machine
  regs : Registers

def PatternBuffer.eflags (b : PatternBuffer) : Nat :=
  (if b.notBol then REG_NOTBOL else 0) ||| (if b.notEol then REG_NOTEOL else 0)

/-- The greatest `Idx`. -/
def IDX_MAX : Nat := 2 ^ 63 - 1

/-- A sum of `Idx`: an overflow is undefined. -/
def addIdx (a b : Int) : Option Int :=
  if -IDX_MAX - 1 ≤ a + b ∧ a + b ≤ IDX_MAX then some (a + b) else none

/-- `last_start`, moved into the string. -/
def lastStart (length start range last : Int) : Int :=
  if length < last ∨ (0 ≤ range ∧ last < start) then length
  else if last < 0 ∨ (range < 0 ∧ start ≤ last) then 0
  else last

/-- How many registers are asked for, and whether they are copied. -/
def nregsOf (b : PatternBuffer) (regs : Registers) (wanted : Bool) : Nat × Bool :=
  if !wanted || b.preg.noSub then (1, false)
  else if b.regsAllocated = .fixed ∧ regs.numRegs ≤ b.preg.compiled.nfa.reNsub then
    if regs.numRegs < 1 then (1, false) else (regs.numRegs, true)
  else (b.preg.compiled.nfa.reNsub + 1, true)

variable (A : Allocator DfaState) (loc : Regcomp.Locale) (tolower : UInt8 → UInt8)
variable (okBuf : Int → Bool) (okGroup okFollow : Nat → Bool) (okMatch okString : Bool)

/-- `re_compile_fastmap`; there has to be a place for the fastmap. -/
def PatternBuffer.reCompileFastmap (b : PatternBuffer) (m : Machine) : Option PatternBuffer := do
  let _ ← b.preg.fastmap
  let s ← Regexec.reCompileFastmap tolower (b.preg.syn.has RE_ICASE)
    (b.preg.compiled.dfa loc b.preg.syn).nodes m.dfa.mem.heap b.preg.init
  some { b with preg := { b.preg with
    fastmap := some s.map
    fastmapAccurate := true
    canBeNull := b.preg.canBeNull || s.canBeNull } }

/-- The fastmap is compiled when it is first needed. -/
def PatternBuffer.compileFastmap (b : PatternBuffer) (m : Machine) (start last : Int) :
    Option PatternBuffer :=
  if start < last ∧ b.preg.fastmap.isSome ∧ !b.preg.fastmapAccurate then
    b.reCompileFastmap loc tolower m
  else some b

/-- `re_search_stub`; `wanted` says whether `regs` is passed. -/
def reSearchStub (s : Searcher) (string : List UInt8) (start range stop : Int)
    (wanted retLen : Bool) : Option (Searcher × Int) := do
  let last ← addIdx start range
  if start < 0 ∨ string.length < start then some (s, -1)
  else do
    let last := lastStart string.length start range last
    let b ← s.buffer.compileFastmap loc tolower s.machine start last
    let (nregs, copied) := nregsOf b s.regs wanted
    if !okMatch then some (⟨b, s.machine, s.regs⟩, -2)
    else do
      let src := b.preg.source loc okBuf string stop b.eflags
      let (m, err, pmatch) ←
        reSearchInternal A loc src b.preg okGroup okFollow s.machine start last nregs
      if err ≠ REG_NOERROR then
        some (⟨b, m, s.regs⟩, if err = REG_NOMATCH then -1 else -2)
      else do
        let (regs, allocated) ←
          if copied then reCopyRegs okStart okEnd s.regs pmatch nregs b.regsAllocated
          else some (s.regs, b.regsAllocated)
        let s : Searcher := ⟨{ b with regsAllocated := allocated }, m, regs⟩
        if copied ∧ allocated = .unallocated then some (s, -2)
        else do
          let first ← pmatch[0]?
          -- `DEBUG_ASSERT (pmatch[0].rm_so == start)`
          if retLen ∧ first.1 ≠ start then none
          else some (s, if retLen then first.2 - start else first.1)

/-- `re_search_2_stub`. -/
def reSearch2Stub (s : Searcher) (string1 string2 : List UInt8) (start range stop : Int)
    (wanted retLen : Bool) : Option (Searcher × Int) :=
  if stop < 0 ∨ IDX_MAX < string1.length + string2.length then some (s, -2)
  else if 0 < string2.length ∧ 0 < string1.length ∧ !okString then some (s, -2)
  else reSearchStub okStart okEnd A loc tolower okBuf okGroup okFollow okMatch s
    (string1 ++ string2) start range stop wanted retLen

/-- `re_match`. -/
def reMatch (s : Searcher) (string : List UInt8) (start : Int) (wanted : Bool) :
    Option (Searcher × Int) :=
  reSearchStub okStart okEnd A loc tolower okBuf okGroup okFollow okMatch s string start 0
    string.length wanted true

/-- `re_search`. -/
def reSearch (s : Searcher) (string : List UInt8) (start range : Int) (wanted : Bool) :
    Option (Searcher × Int) :=
  reSearchStub okStart okEnd A loc tolower okBuf okGroup okFollow okMatch s string start range
    string.length wanted false

/-- `re_match_2`. -/
def reMatch2 (s : Searcher) (string1 string2 : List UInt8) (start stop : Int) (wanted : Bool) :
    Option (Searcher × Int) :=
  reSearch2Stub okStart okEnd A loc tolower okBuf okGroup okFollow okMatch okString s string1
    string2 start 0 stop wanted true

/-- `re_search_2`. -/
def reSearch2 (s : Searcher) (string1 string2 : List UInt8) (start range stop : Int)
    (wanted : Bool) : Option (Searcher × Int) :=
  reSearch2Stub okStart okEnd A loc tolower okBuf okGroup okFollow okMatch okString s string1
    string2 start range stop wanted false

/-- The bit of the syntax for patterns whose groups are never reported. -/
def RE_NO_SUB : RegSyntax := 0x2000000

variable (ok okSet okTree : Nat → Bool) (fresh : Nat → Int) (fuel : Nat)

/-- `re_compile_pattern`, for a buffer with a table `translate` and a place for a fastmap. -/
def reCompilePattern (translate : Option (UInt8 → UInt8)) (fastmap : Option (UInt8 → Bool))
    (syn : RegSyntax) (pattern : List UInt8) :
    Option (Except RegErrcode (PatternBuffer × Machine)) := do
  let noSub := syn.has RE_NO_SUB
  match ← reCompileInternal A loc ok okSet okTree fresh fuel translate syn noSub pattern with
  | .error err => some (.error err)
  | .ok (c, dfa, init) =>
    some (.ok (⟨{
      compiled := c
      init := init
      syn := syn
      translate := translate
      fastmap := fastmap
      fastmapAccurate := false
      canBeNull := false
      newlineAnchor := true
      noSub := noSub }, false, false, .unallocated⟩, ⟨dfa, fun _ => none⟩))

/-! ## Registers -/

/-- The arrays are as long as they are said to be. -/
structure Registers.Fits (regs : Registers) : Prop where
  starts : regs.numRegs ≤ regs.starts.length
  ends : regs.numRegs ≤ regs.ends.length

/-- The registers hold what was found, and `-1` behind it. -/
structure Records (regs : Registers) (found : List (Int × Int)) : Prop where
  room : found.length ≤ regs.numRegs
  starts : regs.starts.take regs.numRegs =
    (found.map Prod.fst).map some ++ List.replicate (regs.numRegs - found.length) (some (-1))
  ends : regs.ends.take regs.numRegs =
    (found.map Prod.snd).map some ++ List.replicate (regs.numRegs - found.length) (some (-1))

theorem copyRegs_spec {numRegs : Nat} {values : List Int} {cells : List (Option Int)}
    (hvalues : values.length ≤ numRegs) (hcells : numRegs ≤ cells.length) :
    ∃ cells', copyRegs numRegs values cells = some cells' ∧ cells'.length = cells.length ∧
      cells'.take numRegs =
        values.map some ++ List.replicate (numRegs - values.length) (some (-1)) := by
  have hlength : (values ++ List.replicate (numRegs - values.length) (-1)).length = numRegs := by
    rw [List.length_append, List.length_replicate]
    omega
  refine ⟨_, if_pos (hlength.trans_le hcells), ?_, ?_⟩
  · rw [List.length_append, List.length_map, List.length_drop, hlength]
    omega
  · rw [List.take_left' (by rw [List.length_map, hlength]), List.map_append, List.map_replicate]

theorem room_spec (regs : Registers) (nregs : Nat) {allocated : RegsAllocated}
    (hfits : allocated ≠ .unallocated → regs.Fits)
    (hfixed : allocated = .fixed → nregs ≤ regs.numRegs) :
    ∃ regs' allocated', regs.room true true (nregs + 1) allocated = (regs', allocated') ∧
      allocated' ≠ .unallocated ∧ regs'.Fits ∧ nregs ≤ regs'.numRegs := by
  cases allocated with
  | unallocated =>
    exact ⟨_, _, rfl, by decide, ⟨by simp, by simp⟩, by simp⟩
  | reallocate =>
    obtain ⟨hstarts, hends⟩ := hfits (by decide)
    by_cases hneed : nregs + 1 > regs.numRegs
    · refine ⟨⟨nregs + 1, resizeCells (nregs + 1) regs.starts, resizeCells (nregs + 1) regs.ends⟩,
        .reallocate, if_pos hneed, by decide, ⟨?_, ?_⟩, Nat.le_succ nregs⟩
      · simp [resizeCells]
      · simp [resizeCells]
    · exact ⟨regs, .reallocate, if_neg hneed, by decide, ⟨hstarts, hends⟩, by omega⟩
  | fixed => exact ⟨_, _, rfl, by decide, hfits (by decide), hfixed rfl⟩

/-- Every register is written. -/
theorem reCopyRegs_spec {regs : Registers} {pmatch : List (Int × Int)} {nregs : Nat}
    {allocated : RegsAllocated} (hlength : nregs ≤ pmatch.length)
    (hfits : allocated ≠ .unallocated → regs.Fits)
    (hfixed : allocated = .fixed → nregs ≤ regs.numRegs) :
    ∃ regs' allocated', reCopyRegs true true regs pmatch nregs allocated =
        some (regs', allocated') ∧ allocated' ≠ .unallocated ∧ regs'.Fits ∧
      Records regs' (pmatch.take nregs) := by
  obtain ⟨regs₁, allocated₁, hroom, hne, hfits₁, hle⟩ := room_spec regs nregs hfits hfixed
  have htake : (pmatch.take nregs).length = nregs := by
    rw [List.length_take]
    omega
  have hfirst : ((pmatch.take nregs).map Prod.fst).length ≤ regs₁.numRegs := by
    rw [List.length_map, htake]
    exact hle
  have hsecond : ((pmatch.take nregs).map Prod.snd).length ≤ regs₁.numRegs := by
    rw [List.length_map, htake]
    exact hle
  obtain ⟨starts, hstarts, hslen, hstake⟩ := copyRegs_spec hfirst hfits₁.starts
  obtain ⟨ends, hends, helen, hetake⟩ := copyRegs_spec hsecond hfits₁.ends
  refine ⟨⟨regs₁.numRegs, starts, ends⟩, allocated₁, ?_, hne,
    ⟨hslen.symm ▸ hfits₁.starts, helen.symm ▸ hfits₁.ends⟩, htake.trans_le hle, ?_, ?_⟩
  · unfold reCopyRegs
    simp only [hroom, if_neg hne, hstarts, hends, Option.bind_eq_bind, Option.bind_some]
  · rw [List.length_map] at hstake
    exact hstake
  · rw [List.length_map] at hetake
    exact hetake

/-- The caller's arrays. -/
theorem reSetRegisters_fits {numRegs : Nat} {starts ends : List (Option Int)}
    (hstarts : numRegs ≤ starts.length) (hends : numRegs ≤ ends.length)
    (h : (reSetRegisters numRegs starts ends).2 ≠ .unallocated) :
    (reSetRegisters numRegs starts ends).1.Fits := by
  unfold reSetRegisters at h ⊢
  split
  · exact ⟨hstarts, hends⟩
  · next hzero =>
    rw [if_neg hzero] at h
    exact absurd rfl h

/-! ## Ranges -/

/-- Where a search ends. -/
def rangeEnd (length start range : Int) : Int := max 0 (min length (start + range))

theorem lastStart_eq {length start range : Int} (hstart : 0 ≤ start ∧ start ≤ length) :
    lastStart length start range (start + range) = rangeEnd length start range := by
  unfold lastStart rangeEnd
  split
  · omega
  · split
    · omega
    · omega

/-! ## One search -/

/-- What a run of searches leaves as it is: of the fastmap that there is a place for it. -/
def PatternBuffer.core (b : PatternBuffer) : PatternBuffer where
  preg := { b.preg with
    fastmap := b.preg.fastmap.map fun _ _ => false
    fastmapAccurate := false
    canBeNull := false }
  notBol := b.notBol
  notEol := b.notEol
  regsAllocated := .unallocated

variable {A loc tolower okBuf okGroup okFollow}

variable (loc tolower) in
/-- What a run of searches keeps. -/
structure Serves (s : Searcher) : Prop where
  ready : Ready s.buffer.preg.compiled
  prepared : Prepared loc s.buffer.preg s.machine
  fastmap : s.buffer.preg.fastmapAccurate = true → ∃ f : Fastmap,
    s.buffer.preg.fastmap = some f.map ∧ (s.buffer.preg.canBeNull = false → f.canBeNull = false) ∧
      Covers loc s.buffer.preg.syn s.buffer.preg.compiled tolower
        (s.buffer.preg.syn.has RE_ICASE) f
  fits : s.buffer.regsAllocated ≠ .unallocated → s.regs.Fits

variable {s : Searcher}

theorem reCompileFastmap_serves (hs : Serves loc tolower s)
    (hplace : s.buffer.preg.fastmap.isSome = true) :
    ∃ b, s.buffer.reCompileFastmap loc tolower s.machine = some b ∧ b.core = s.buffer.core ∧
      b.preg.fastmapAccurate = true ∧ Serves loc tolower ⟨b, s.machine, s.regs⟩ := by
  obtain ⟨map, hmap⟩ := Option.isSome_iff_exists.mp hplace
  obtain ⟨f, hrun, hcovers⟩ : ∃ f, reCompileFastmap tolower (s.buffer.preg.syn.has RE_ICASE)
      (s.buffer.preg.compiled.dfa loc s.buffer.preg.syn).nodes s.machine.dfa.mem.heap
      s.buffer.preg.init = some f ∧ Covers loc s.buffer.preg.syn s.buffer.preg.compiled tolower
        (s.buffer.preg.syn.has RE_ICASE) f :=
    reCompileFastmap_spec hs.ready hs.prepared.cached hs.prepared.starts
  unfold PatternBuffer.reCompileFastmap
  rw [hmap, hrun]
  refine ⟨_, rfl, ?_, rfl, hs.ready, ⟨hs.prepared.cached, hs.prepared.starts⟩, fun _ => ?_, hs.fits⟩
  · rw [PatternBuffer.core, PatternBuffer.core, hmap]
    rfl
  · exact ⟨f, rfl, fun hnull => (Bool.or_eq_false_iff.mp hnull).2, hcovers⟩

theorem compileFastmap_spec (hs : Serves loc tolower s) (start last : Int) :
    ∃ b, s.buffer.compileFastmap loc tolower s.machine start last = some b ∧
      b.core = s.buffer.core ∧ Serves loc tolower ⟨b, s.machine, s.regs⟩ := by
  unfold PatternBuffer.compileFastmap
  split
  · next hneeded =>
    obtain ⟨b, hb, hcore, -, hb'⟩ := reCompileFastmap_serves hs hneeded.2.1
    exact ⟨b, hb, hcore, hb'⟩
  · exact ⟨_, rfl, rfl, hs⟩

/-- Only registers that are there are copied. -/
theorem nregsOf_spec {b : PatternBuffer} {regs : Registers} {wanted : Bool}
    (hgroups : b.preg.noSub = true ∨ wanted = false ∨ b.preg.compiled.nfa.reNsub = 0) :
    (nregsOf b regs wanted).1 = 1 ∧
      ((nregsOf b regs wanted).2 = true → b.regsAllocated = .fixed → 1 ≤ regs.numRegs) ∧
      ((nregsOf b regs wanted).2 = false → wanted = true → b.preg.noSub = false →
        regs.numRegs = 0) := by
  unfold nregsOf
  split
  · next hnone =>
    refine ⟨rfl, fun h => (by cases h), fun _ hwanted hsub => ?_⟩
    rw [hwanted, hsub] at hnone
    cases hnone
  · next hsome =>
    have hzero : b.preg.compiled.nfa.reNsub = 0 := by
      obtain hsub | hwanted | hzero := hgroups
      · rw [hsub, Bool.or_true] at hsome
        exact absurd rfl hsome
      · rw [hwanted] at hsome
        exact absurd rfl hsome
      · exact hzero
    rw [hzero]
    split
    · rw [if_pos (by omega)]
      exact ⟨rfl, fun h => (by cases h), fun _ _ _ => by omega⟩
    · next hroom =>
      refine ⟨rfl, fun _ hfixed => ?_, fun h => (by cases h)⟩
      by_contra hlt
      exact hroom ⟨hfixed, by omega⟩

variable (loc okBuf) in
/-- The string that is searched. -/
def PatternBuffer.source (b : PatternBuffer) (string : List UInt8) (stop : Int) : Source :=
  b.preg.source loc okBuf string stop b.eflags

variable (loc okBuf) in
/-- The first match of the range is returned, or its length from the start, and stored. -/
def Replies (b : PatternBuffer) (string : List UInt8) (start range stop : Int)
    (wanted retLen : Bool) (value : Int) (regs : Registers) : Prop :=
  let src := b.source loc okBuf string stop
  let first := start.toNat
  let last := (rangeEnd string.length start range).toNat
  (value = -1 ∧ (0 ≤ start ∧ start ≤ string.length → ∀ i, min first last ≤ i → i ≤ max first last →
      ¬ Start src loc b.preg.syn b.preg.compiled i)) ∨
    (0 ≤ start ∧ start ≤ string.length) ∧ ∃ so eo, Found src loc b.preg.syn b.preg.compiled
        (decide (first ≤ last)) (min first last) (max first last) so eo ∧
      (retLen = true → so = start) ∧ value = (if retLen then eo - start else so) ∧
      (wanted = true → b.preg.noSub = false → regs.numRegs = 0 ∨ Records regs [(so, eo)])

variable (loc okBuf) in
/-- The longest match at the place is the empty one, and the character behind it leads back to the
    state that a match there starts in: it is taken for one further on. -/
def Astray (b : PatternBuffer) (string : List UInt8) (stop : Int) (i : Nat) : Prop :=
  let src := b.source loc okBuf string stop
  i < stop.toNat ∧ Longest src loc b.preg.syn b.preg.compiled i i ∧
    Loops src loc b.preg.syn b.preg.compiled i

/-- What is cached is no part of the answer. -/
theorem replies_congr {b b' : PatternBuffer} (h : b.core = b'.core) {string : List UInt8}
    {start range stop : Int} {wanted retLen : Bool} {value : Int} {regs : Registers} :
    Replies loc okBuf b string start range stop wanted retLen value regs ↔
      Replies loc okBuf b' string start range stop wanted retLen value regs := by
  change Replies loc okBuf b.core string start range stop wanted retLen value regs ↔
    Replies loc okBuf b'.core string start range stop wanted retLen value regs
  rw [h]

variable {ok okSet okTree : Nat → Bool}

/-- A match that is not led astray is reported where it is. -/
theorem Found.at_start {b : PatternBuffer} {string : List UInt8} {stop : Int} {forward : Bool}
    {start : Nat} {so eo : Int} (h : Found (b.source loc okBuf string stop) loc b.preg.syn
      b.preg.compiled forward start start so eo) (hno : ¬ Astray loc okBuf b string stop start) :
    so = start := by
  obtain ⟨i, j, k, rfl, -, hfirst, hlongest, hk⟩ := h
  have hi : i = start := by
    have := hfirst.le
    omega
  subst hi
  have hzero : k = 0 := by
    by_contra hne
    obtain ⟨rfl, hle, hloops, -⟩ := hk hne
    change j + k ≤ stop.toNat at hle
    exact hno ⟨by omega, hlongest, hloops⟩
  rw [hzero, Nat.cast_zero, add_zero]

theorem astray_congr {b b' : PatternBuffer} (h : b.core = b'.core) {string : List UInt8}
    {stop : Int} {i : Nat} :
    Astray loc okBuf b string stop i ↔ Astray loc okBuf b' string stop i := by
  change Astray loc okBuf b.core string stop i ↔ Astray loc okBuf b'.core string stop i
  rw [h]

theorem le_IDX_MAX {n : Nat} (h : n + 1 < BUFS_MAX) : (n : Int) ≤ IDX_MAX := by
  have : BUFS_MAX ≤ IDX_MAX := by decide
  omega

/-- A match starts with a byte that the fastmap has. -/
theorem Serves.mayStart (hreg : Regular loc tolower) (hs : Serves loc tolower s)
    {string : List UInt8} {stop : Int} (haccurate : s.buffer.preg.fastmapAccurate = true)
    (hnull : s.buffer.preg.canBeNull = false) {map : UInt8 → Bool}
    (hmap : s.buffer.preg.fastmap = some map) {i j : Nat}
    (hmatch : Matches (s.buffer.source loc okBuf string stop) loc s.buffer.preg.syn
      s.buffer.preg.compiled i j) :
    ∃ ch, (s.buffer.source loc okBuf string stop).firstByte i = some ch ∧
      (s.buffer.source loc okBuf string stop).mayStart map ch = true := by
  obtain ⟨f, hf, hnull', hcovers⟩ := hs.fastmap haccurate
  obtain rfl := Option.some.inj (hmap.symm.trans hf)
  exact hcovers.mayStart (hnull' hnull) (fun _ => hreg.pairs) hs.ready.sound hmatch

/-- What `re_search_internal` reports for one register. -/
theorem Serves.search (hreg : Regular loc tolower)
    (hall : Allocates A ok okTree okGroup okFollow okBuf) (hs : Serves loc tolower s)
    (hback : BackRefless s.buffer.preg.compiled) {string : List UInt8} {stop : Int}
    (hstop : stop ≤ string.length) (hsmall : string.length + 1 < BUFS_MAX) {first last : Nat}
    (hfirst : first ≤ string.length) (hlast : last ≤ string.length) :
    ∃ m err pmatch, reSearchInternal A loc (s.buffer.source loc okBuf string stop) s.buffer.preg
        okGroup okFollow s.machine first last 1 = some (m, err, pmatch) ∧
      Prepared loc s.buffer.preg m ∧
      Reports (s.buffer.source loc okBuf string stop) loc s.buffer.preg first last 1 err
        pmatch := by
  have hworks : Works loc s.buffer.preg.compiled A okGroup okFollow :=
    ⟨hreg.ascii, hs.ready, hall.states, hall.groups, hall.follows⟩
  have hsearchable : Searchable (s.buffer.source loc okBuf string stop) loc s.buffer.preg.syn
      s.buffer.preg.compiled :=
    ⟨hall.buffers, caseFree_of_regular hreg rfl rfl, hstop, hsmall, rfl⟩
  have hlog : logsStates s.buffer.preg (1 - extraNmatch s.buffer.preg 1) = false :=
    logsStates_of_le hback (Nat.sub_le 1 _)
  exact @reSearchInternal_reports (s.buffer.source loc okBuf string stop) loc A okGroup okFollow
    s.buffer.preg s.machine hworks hsearchable rfl
    (fun haccurate hnull map hmap i ⟨j, _, hmatch⟩ => hs.mayStart hreg haccurate hnull hmap hmatch)
    hs.prepared first last hfirst hlast 1 hlog

/-- The search of the clamped range. -/
theorem Serves.search_range (hreg : Regular loc tolower)
    (hall : Allocates A ok okTree okGroup okFollow okBuf) (hs : Serves loc tolower s)
    (hback : BackRefless s.buffer.preg.compiled) {string : List UInt8} {start stop : Int}
    (hstop : stop ≤ string.length) (hsmall : string.length + 1 < BUFS_MAX)
    (hin : 0 ≤ start ∧ start ≤ string.length) (range : Int) :
    ∃ m err pmatch, reSearchInternal A loc (s.buffer.source loc okBuf string stop) s.buffer.preg
        okGroup okFollow s.machine start (rangeEnd string.length start range) 1 =
          some (m, err, pmatch) ∧
      Prepared loc s.buffer.preg m ∧
      Reports (s.buffer.source loc okBuf string stop) loc s.buffer.preg start.toNat
        (rangeEnd string.length start range).toNat 1 err pmatch := by
  obtain ⟨hlo, hhi⟩ : 0 ≤ rangeEnd string.length start range ∧
      rangeEnd string.length start range ≤ string.length := by
    unfold rangeEnd
    omega
  have hsearch := hs.search hreg hall hback hstop hsmall (by omega : start.toNat ≤ string.length)
    (by omega : (rangeEnd string.length start range).toNat ≤ string.length)
  rwa [Int.toNat_of_nonneg hin.1, Int.toNat_of_nonneg hlo] at hsearch

/-- The assertion of `re_match` holds. -/
theorem Found.at_start_of_steady {b : PatternBuffer} {string : List UInt8}
    {start range stop so eo : Int} (hin : 0 ≤ start ∧ start ≤ string.length) (hrange : range = 0)
    (hno : ¬ Astray loc okBuf b string stop start.toNat)
    (h : Found (b.source loc okBuf string stop) loc b.preg.syn b.preg.compiled
      (decide (start.toNat ≤ (rangeEnd string.length start range).toNat))
      (min start.toNat (rangeEnd string.length start range).toNat)
      (max start.toNat (rangeEnd string.length start range).toNat) so eo) : so = start := by
  have hsame : (rangeEnd string.length start range).toNat = start.toNat := by
    unfold rangeEnd
    omega
  rw [hsame, min_self, max_self] at h
  exact (h.at_start hno).trans (Int.toNat_of_nonneg hin.1)

/-- One search. -/
theorem reSearchStub_replies (hreg : Regular loc tolower)
    (hall : Allocates A ok okTree okGroup okFollow okBuf) (hs : Serves loc tolower s)
    (hback : BackRefless s.buffer.preg.compiled) {string : List UInt8} {start range stop : Int}
    {wanted retLen : Bool} (hstop : stop ≤ string.length) (hsmall : string.length + 1 < BUFS_MAX)
    (hrange : -IDX_MAX - 1 ≤ start + range ∧ start + range ≤ IDX_MAX)
    (hsteady : retLen = true → range = 0 ∧
      (0 ≤ start → ¬ Astray loc okBuf s.buffer string stop start.toNat))
    (hgroups : s.buffer.preg.noSub = true ∨ wanted = false ∨
      s.buffer.preg.compiled.nfa.reNsub = 0) :
    ∃ s' value, reSearchStub true true A loc tolower okBuf okGroup okFollow true s string start
        range stop wanted retLen = some (s', value) ∧ Serves loc tolower s' ∧
      s'.buffer.core = s.buffer.core ∧
      Replies loc okBuf s.buffer string start range stop wanted retLen value s'.regs := by
  have hadd : addIdx start range = some (start + range) := if_pos hrange
  by_cases hout : start < 0 ∨ string.length < start
  · refine ⟨s, -1, ?_, hs, rfl, .inl ⟨rfl, fun h => by omega⟩⟩
    unfold reSearchStub
    rw [hadd, Option.bind_eq_bind, Option.bind_some, if_pos hout]
  have hin : 0 ≤ start ∧ start ≤ string.length := by omega
  obtain ⟨b, hb, hcore, hb'⟩ := compileFastmap_spec hs start (rangeEnd string.length start range)
  have hsub : b.preg.noSub = s.buffer.preg.noSub := congrArg (fun b => b.preg.noSub) hcore
  have hcompiled : b.preg.compiled = s.buffer.preg.compiled :=
    congrArg (fun b => b.preg.compiled) hcore
  have hgroups' : b.preg.noSub = true ∨ wanted = false ∨ b.preg.compiled.nfa.reNsub = 0 := by
    rw [hsub, hcompiled]
    exact hgroups
  obtain ⟨hone, hroom, hzero⟩ := @nregsOf_spec b s.regs wanted hgroups'
  generalize hnregs : nregsOf b s.regs wanted = asked at hone hroom hzero
  obtain ⟨nregs, copied⟩ := asked
  obtain rfl : nregs = 1 := hone
  obtain ⟨m, err, pmatch, hsearch, hm, hreports⟩ :=
    hb'.search_range hreg hall (hcompiled ▸ hback) hstop hsmall hin range
  have hkept : ∀ allocated regs, (allocated ≠ .unallocated → regs.Fits) →
      Serves loc tolower ⟨{ b with regsAllocated := allocated }, m, regs⟩ :=
    fun _ _ hfits => ⟨hb'.ready, ⟨hm.cached, hm.starts⟩, hb'.fastmap, hfits⟩
  unfold reSearchStub
  simp only [hadd, Option.bind_eq_bind, Option.bind_some, if_neg hout, lastStart_eq hin, hb, hnregs,
    Bool.not_true, Bool.false_eq_true, if_false]
  change ∃ s' value, (reSearchInternal A loc (b.source loc okBuf string stop) b.preg okGroup
    okFollow s.machine start (rangeEnd string.length start range) 1).bind _ = some (s', value) ∧ _
  rw [hsearch]
  simp only [Option.bind_some]
  obtain ⟨rfl, rfl, hnone⟩ | ⟨rfl, -, hmatch⟩ := hreports
  · refine ⟨_, _, by rw [if_pos (by decide), if_pos rfl], hkept _ _ hb'.fits, hcore, ?_⟩
    exact (replies_congr hcore).mp (.inl ⟨rfl, fun _ => hnone⟩)
  obtain ⟨so, eo, rest, rfl, hfound⟩ := hmatch one_ne_zero
  have hstart : retLen = true → so = start := fun hlen =>
    Found.at_start_of_steady hin (hsteady hlen).1
      ((astray_congr hcore).not.mpr ((hsteady hlen).2 hin.1)) hfound
  have hreply : ∀ regs : Registers,
      (wanted = true → b.preg.noSub = false → regs.numRegs = 0 ∨ Records regs [(so, eo)]) →
      Replies loc okBuf s.buffer string start range stop wanted retLen
        (if retLen then eo - start else so) regs :=
    fun _ hregs => (replies_congr hcore).mp (.inr ⟨hin, so, eo, hfound, hstart, rfl, hregs⟩)
  have hholds : ¬ (retLen = true ∧ so ≠ start) := fun h => h.2 (hstart h.1)
  have hfirst : ((so, eo) :: rest)[0]? = some (so, eo) := rfl
  rw [if_neg (by decide)]
  cases copied with
  | false =>
    refine ⟨_, _, ?_, hkept _ _ hb'.fits, hcore, hreply _ fun hwanted hsub =>
      .inl (hzero rfl hwanted hsub)⟩
    simp only [Bool.false_eq_true, if_false, false_and, hfirst, Option.bind_some, if_neg hholds]
  | true =>
    have hlength : 1 ≤ ((so, eo) :: rest).length := by simp
    obtain ⟨regs, allocated, hcopy, hne, hfits, hrecords⟩ :=
      reCopyRegs_spec hlength hb'.fits (hroom rfl)
    refine ⟨⟨{ b with regsAllocated := allocated }, m, regs⟩, _, ?_,
      hkept allocated regs fun _ => hfits, hcore, hreply _ fun _ _ => .inr hrecords⟩
    simp only [if_true, hcopy, Option.bind_some, true_and, if_neg hne, hfirst, if_neg hholds]

end Librecompat.Regexec
