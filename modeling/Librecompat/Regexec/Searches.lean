/-
  `re_compile_pattern`, and then any calls of the GNU functions.

  Each call of a run returns the first match of its range, or its length (`searchAll_replies`), and
  behind a run the fastmap misses no match (`fastmap_complete`). For a simple pattern the matches
  are the words of the language of its tree (`searchAll_locates`); none of its matches is led astray
  (`not_astray`).
-/
import Librecompat.Regexec.Gnu

namespace Librecompat.Regexec

open Librecompat.Lib Librecompat.NodeSet Librecompat.Regcomp
open Librecompat.Regex

variable {A : Allocator DfaState} {loc : Regcomp.Locale} {tolower : UInt8 → UInt8}
variable {okBuf : Int → Bool} {okGroup okFollow ok okSet okTree : Nat → Bool} {s : Searcher}

/-! ## Runs of searches -/

/-- A call of one of the four functions; `wanted` says whether registers are passed. -/
inductive SearchCall where
  | reMatch (string : List UInt8) (start : Int) (wanted : Bool)
  | reSearch (string : List UInt8) (start range : Int) (wanted : Bool)
  | reMatch2 (string1 string2 : List UInt8) (start stop : Int) (wanted : Bool)
  | reSearch2 (string1 string2 : List UInt8) (start range stop : Int) (wanted : Bool)

namespace SearchCall

def string : SearchCall → List UInt8
  | .reMatch string .. => string
  | .reSearch string .. => string
  | .reMatch2 string1 string2 .. => string1 ++ string2
  | .reSearch2 string1 string2 .. => string1 ++ string2

def start : SearchCall → Int
  | .reMatch _ start _ => start
  | .reSearch _ start _ _ => start
  | .reMatch2 _ _ start _ _ => start
  | .reSearch2 _ _ start _ _ _ => start

def range : SearchCall → Int
  | .reSearch _ _ range _ => range
  | .reSearch2 _ _ _ range _ _ => range
  | _ => 0

def stop : SearchCall → Int
  | .reMatch string .. => string.length
  | .reSearch string .. => string.length
  | .reMatch2 _ _ _ stop _ => stop
  | .reSearch2 _ _ _ _ stop _ => stop

def wanted : SearchCall → Bool
  | .reMatch _ _ wanted => wanted
  | .reSearch _ _ _ wanted => wanted
  | .reMatch2 _ _ _ _ wanted => wanted
  | .reSearch2 _ _ _ _ _ wanted => wanted

/-- The length of the match is returned. -/
def retLen : SearchCall → Bool
  | .reMatch .. => true
  | .reMatch2 .. => true
  | _ => false

variable (A loc tolower okBuf okGroup okFollow) in
/-- The call, with storage for everything that it allocates. -/
def exec (s : Searcher) : SearchCall → Option (Searcher × Int)
  | .reMatch string start wanted =>
    Regexec.reMatch true true A loc tolower okBuf okGroup okFollow true s string start wanted
  | .reSearch string start range wanted =>
    Regexec.reSearch true true A loc tolower okBuf okGroup okFollow true s string start range wanted
  | .reMatch2 string1 string2 start stop wanted =>
    Regexec.reMatch2 true true A loc tolower okBuf okGroup okFollow true true s string1 string2
      start stop wanted
  | .reSearch2 string1 string2 start range stop wanted =>
    Regexec.reSearch2 true true A loc tolower okBuf okGroup okFollow true true s string1 string2
      start range stop wanted

/-- The numbers are ones of the string, and no groups are asked for. -/
structure Valid (b : PatternBuffer) (call : SearchCall) : Prop where
  stop : 0 ≤ call.stop ∧ call.stop ≤ call.string.length
  small : call.string.length + 1 < BUFS_MAX
  range : -IDX_MAX - 1 ≤ call.start + call.range ∧ call.start + call.range ≤ IDX_MAX
  groups : b.preg.noSub = true ∨ call.wanted = false ∨ b.preg.compiled.nfa.reNsub = 0

variable {b : PatternBuffer}

theorem Valid.buffer {b' : PatternBuffer} {call : SearchCall} (h : call.Valid b)
    (hpreg : b'.preg = b.preg) : call.Valid b' :=
  ⟨h.stop, h.small, h.range, hpreg ▸ h.groups⟩

variable (loc okBuf) in
/-- A length is not asked for where the match is led astray. -/
def Steady (b : PatternBuffer) (call : SearchCall) : Prop :=
  call.retLen = true → 0 ≤ call.start → ¬ Astray loc okBuf b call.string call.stop call.start.toNat

/-- A length is asked for at one place. -/
theorem range_of_retLen {call : SearchCall} (h : call.retLen = true) : call.range = 0 := by
  cases call with
  | reMatch string start wanted => rfl
  | reSearch string start range wanted => cases h
  | reMatch2 string1 string2 start stop wanted => rfl
  | reSearch2 string1 string2 start range stop wanted => cases h

/-- Two strings are searched as one. -/
theorem reSearch2Stub_eq {string1 string2 : List UInt8} {start range stop : Int}
    {wanted retLen : Bool} (hstop : 0 ≤ stop)
    (hsmall : (string1 ++ string2).length + 1 < BUFS_MAX) :
    reSearch2Stub true true A loc tolower okBuf okGroup okFollow true true s string1 string2 start
        range stop wanted retLen =
      reSearchStub true true A loc tolower okBuf okGroup okFollow true s (string1 ++ string2) start
        range stop wanted retLen := by
  have hle := le_IDX_MAX hsmall
  rw [List.length_append] at hle
  unfold reSearch2Stub
  rw [if_neg (by omega), if_neg (by simp)]

theorem exec_eq {call : SearchCall} (h : call.Valid b) :
    call.exec A loc tolower okBuf okGroup okFollow s =
      reSearchStub true true A loc tolower okBuf okGroup okFollow true s call.string call.start
        call.range call.stop call.wanted call.retLen := by
  cases call with
  | reMatch string start wanted => rfl
  | reSearch string start range wanted => rfl
  | reMatch2 string1 string2 start stop wanted => exact reSearch2Stub_eq h.stop.1 h.small
  | reSearch2 string1 string2 start range stop wanted => exact reSearch2Stub_eq h.stop.1 h.small

variable (loc okBuf) in
/-- What the call returns, with the registers then. -/
def Answered (b : PatternBuffer) (call : SearchCall) (result : Int × Registers) : Prop :=
  Replies loc okBuf b call.string call.start call.range call.stop call.wanted call.retLen result.1
    result.2

end SearchCall

variable (A loc tolower okBuf okGroup okFollow) in
/-- One call after the other. -/
def searchAll : Searcher → List SearchCall → Option (Searcher × List (Int × Registers))
  | s, [] => some (s, [])
  | s, call :: calls => do
    let (s, value) ← call.exec A loc tolower okBuf okGroup okFollow s
    let (s', results) ← searchAll s calls
    some (s', (value, s.regs) :: results)

theorem searchAll_serves (hreg : Regular loc tolower)
    (hall : Allocates A ok okTree okGroup okFollow okBuf) {b : PatternBuffer}
    (hback : BackRefless b.preg.compiled) : ∀ {calls : List SearchCall} {s : Searcher},
    Serves loc tolower s → s.buffer.core = b.core → (∀ call ∈ calls, call.Valid b) →
    (∀ call ∈ calls, call.Steady loc okBuf b) →
    ∃ s' results, searchAll A loc tolower okBuf okGroup okFollow s calls = some (s', results) ∧
      Serves loc tolower s' ∧ s'.buffer.core = b.core ∧
      List.Forall₂ (SearchCall.Answered loc okBuf b) calls results
  | [], s, hs, hcore, _, _ => ⟨s, [], rfl, hs, hcore, .nil⟩
  | call :: calls, s, hs, hcore, hv, hsteady => by
    have hvalid := hv call List.mem_cons_self
    have hcompiled : s.buffer.preg.compiled = b.preg.compiled :=
      congrArg (fun b => b.preg.compiled) hcore
    have hsub : s.buffer.preg.noSub = b.preg.noSub := congrArg (fun b => b.preg.noSub) hcore
    obtain ⟨s₁, value, hcall, hs₁, hcore₁, hreply⟩ := @reSearchStub_replies A loc tolower okBuf
      okGroup okFollow s ok okTree hreg hall hs (hcompiled ▸ hback) call.string call.start
      call.range call.stop call.wanted call.retLen hvalid.stop.2 hvalid.small hvalid.range
      (fun hlen => ⟨SearchCall.range_of_retLen hlen, fun hstart =>
        (astray_congr hcore).not.mpr (hsteady call List.mem_cons_self hlen hstart)⟩)
      (by rw [hsub, hcompiled]; exact hvalid.groups)
    obtain ⟨s₂, results, hcalls, hs₂, hcore₂, hrest⟩ := searchAll_serves hreg hall hback hs₁
      (hcore₁.trans hcore) (fun call hcall => hv call (List.mem_cons_of_mem _ hcall))
      fun call hcall => hsteady call (List.mem_cons_of_mem _ hcall)
    refine ⟨s₂, (value, s₁.regs) :: results, ?_, hs₂, hcore₂,
      .cons ((replies_congr hcore).mp hreply) hrest⟩
    simp only [searchAll, SearchCall.exec_eq hvalid, hcall, hcalls, Option.bind_eq_bind,
      Option.bind_some]

/-! ## re_compile_pattern -/

variable {fresh : Nat → Int} {fuel : Nat} {translate : Option (UInt8 → UInt8)}
variable {fastmap : Option (UInt8 → Bool)} {syn : RegSyntax} {pattern : List UInt8}
variable {b : PatternBuffer} {m : Machine}

/-- The steps of `re_compile_pattern`. -/
theorem reCompilePattern_cases
    (h : reCompilePattern A loc ok okSet okTree fresh fuel translate fastmap syn pattern =
      some (.ok (b, m))) :
    b.preg.syn = syn ∧ (b.preg.translate = translate ∧ b.preg.fastmap = fastmap ∧
        b.preg.fastmapAccurate = false) ∧
      compile ok loc translate okSet okTree fresh syn (syn.has RE_NO_SUB) fuel pattern =
        some (.ok b.preg.compiled) ∧
      ∃ dfa, acquireInitStates A (nodeList b.preg.compiled.initNodes)
          (initDfa b.preg.compiled pattern.length) = some (dfa, .ok b.preg.init) ∧
        m = ⟨dfa, fun _ => none⟩ := by
  unfold reCompilePattern at h
  obtain ⟨r, hr, h⟩ := Option.bind_eq_some_iff.mp h
  cases r with
  | error err => cases h
  | ok q =>
    obtain ⟨c, dfa, init⟩ := q
    obtain ⟨rfl, rfl⟩ := Prod.mk.inj (Except.ok.inj (Option.some.inj h))
    obtain ⟨hcompile, hinit⟩ := reCompileInternal_cases hr
    exact ⟨rfl, ⟨rfl, rfl, rfl⟩, hcompile, dfa, hinit, rfl⟩

/-- The registers may have been set since. -/
theorem serves_of_pattern (hall : Allocates A ok okTree okGroup okFollow okBuf)
    (h : reCompilePattern A loc ok okSet okTree fresh fuel translate fastmap syn pattern =
      some (.ok (b, m)))
    (hback : BackRefless b.preg.compiled) (hbrackets : Bracketed b.preg.compiled)
    (notBol notEol : Bool) {allocated : RegsAllocated} {regs : Registers}
    (hfits : allocated ≠ .unallocated → regs.Fits) :
    Serves loc tolower ⟨⟨b.preg, notBol, notEol, allocated⟩, m, regs⟩ := by
  obtain ⟨rfl, ⟨-, -, hfast⟩, hcompile, dfa, hinit, rfl⟩ := reCompilePattern_cases h
  obtain ⟨hready, hcached, hstarts⟩ := prepared_of_compile hall hcompile hinit hback hbrackets
  refine ⟨hready, ⟨hcached, hstarts⟩, fun haccurate => ?_, hfits⟩
  change b.preg.fastmapAccurate = true at haccurate
  rw [hfast] at haccurate
  cases haccurate

/-- Where the contexts do not matter, no match is led astray: the empty word stands everywhere. -/
theorem not_astray {L : Language UInt8} {string : List UInt8} {stop : Int}
    (hs : Searchable (b.source loc okBuf string stop) loc b.preg.syn b.preg.compiled)
    (haccepts : ∀ before after,
      (automaton loc b.preg.syn b.preg.compiled before after).accepts = L) (i : Nat) :
    ¬ Astray loc okBuf b string stop i := by
  rintro ⟨hlt, hlongest, hloops⟩
  have hmatches : ∀ {i j : Nat}, Matches (b.source loc okBuf string stop) loc b.preg.syn
      b.preg.compiled i j ↔ i ≤ j ∧ j ≤ (b.source loc okBuf string stop).text.length ∧
        (b.source loc okBuf string stop).slice i j ∈ L := by
    intro i j
    rw [Matches, haccepts]
  have hempty : ∀ i, (b.source loc okBuf string stop).slice i i = [] := fun i => by
    simp [Source.slice]
  have hnil : [] ∈ L := hempty i ▸ (hmatches.mp hlongest.isMatch).2.2
  obtain ⟨ch, hch, -⟩ := id hloops
  have hnext : i + 1 ≤ (b.source loc okBuf string stop).text.length :=
    (List.getElem?_eq_some_iff.mp hch).1
  have hmatch : Matches (b.source loc okBuf string stop) loc b.preg.syn b.preg.compiled i (i + 1) :=
    ((hloops.idle hs).matches_iff (Nat.le_succ i) (le_refl _)).mp
      (hmatches.mpr ⟨le_refl _, hnext, (hempty _).symm ▸ hnil⟩)
  have hmax := hlongest.max (i + 1) (le_max_of_le_right hlt) hmatch
  omega

theorem steady_of_accepts {L : Language UInt8} (hreg : Regular loc tolower)
    (hbuf : ∀ n, okBuf n = true)
    (haccepts : ∀ before after,
      (automaton loc b.preg.syn b.preg.compiled before after).accepts = L)
    {call : SearchCall} (hvalid : call.Valid b) : call.Steady loc okBuf b := by
  have hs : Searchable (b.source loc okBuf call.string call.stop) loc b.preg.syn
      b.preg.compiled :=
    ⟨hbuf, caseFree_of_regular hreg rfl rfl, hvalid.stop.2, hvalid.small, rfl⟩
  exact fun _ _ => not_astray hs haccepts _

/-- Each search of a run returns the first match of its range, or its length. -/
theorem searchAll_replies (hreg : Regular loc tolower)
    (hall : Allocates A ok okTree okGroup okFollow okBuf)
    (h : reCompilePattern A loc ok okSet okTree fresh fuel translate fastmap syn pattern =
      some (.ok (b, m)))
    (hback : BackRefless b.preg.compiled) (hbrackets : Bracketed b.preg.compiled)
    (notBol notEol : Bool) {allocated : RegsAllocated} {regs : Registers}
    (hfits : allocated ≠ .unallocated → regs.Fits) {calls : List SearchCall}
    (hv : ∀ call ∈ calls, call.Valid b)
    (hsteady : ∀ call ∈ calls, call.Steady loc okBuf ⟨b.preg, notBol, notEol, allocated⟩) :
    ∃ s' results, searchAll A loc tolower okBuf okGroup okFollow
        ⟨⟨b.preg, notBol, notEol, allocated⟩, m, regs⟩ calls = some (s', results) ∧
      List.Forall₂ (SearchCall.Answered loc okBuf ⟨b.preg, notBol, notEol, allocated⟩) calls
        results := by
  let b' : PatternBuffer := ⟨b.preg, notBol, notEol, allocated⟩
  have hs : Serves loc tolower ⟨b', m, regs⟩ :=
    serves_of_pattern hall h hback hbrackets notBol notEol hfits
  have hv' : ∀ call ∈ calls, call.Valid b' := fun call hcall => (hv call hcall).buffer rfl
  obtain ⟨s', results, hrun, -, -, hanswered⟩ := searchAll_serves hreg hall
    (show BackRefless b'.preg.compiled from hback) hs rfl hv' hsteady
  exact ⟨s', results, hrun, hanswered⟩

def cPattern (translate : Option (UInt8 → UInt8)) (pattern : List UInt8) :
    Option (Except RegErrcode (PatternBuffer × Machine)) :=
  reCompilePattern plenty cLocale (fun _ => true) (fun _ => true) (fun _ => true) (fun _ => 0) 300
    translate (some fun _ => false) RE_SYNTAX_POSIX_EXTENDED pattern

/-- Forwards with registers, backwards, over two strings up to a stop, and at one place. -/
def aSearches : List SearchCall :=
  [.reSearch (chars "xxabb") 0 5 true, .reSearch (chars "abxab") 4 (-4) false,
    .reMatch2 (chars "a") (chars "bb") 0 2 false, .reMatch (chars "xab") 0 false]

def threeRegisters : Registers × RegsAllocated :=
  reSetRegisters 3 (List.replicate 3 none) (List.replicate 3 none)

def firstOfThree : Registers :=
  ⟨3, [some 2, some (-1), some (-1)], [some 5, some (-1), some (-1)]⟩

def aResults : List (Int × Registers) :=
  [(2, firstOfThree), (3, firstOfThree), (2, firstOfThree), (-1, firstOfThree)]

def searchesAre (calls : List SearchCall) (results : List (Int × Registers))
    (b : PatternBuffer) (m : Machine) : Bool :=
  match searchAll plenty cLocale cLower (fun _ => true) (fun _ => true) (fun _ => true)
      ⟨⟨b.preg, false, false, threeRegisters.2⟩, m, threeRegisters.1⟩ calls with
  | some (_, results') => results' = results
  | none => false

/-- The pattern has no groups, no back references and no empty brackets, and `p` holds of it. -/
def patternIs (p : PatternBuffer → Machine → Bool) (translate : Option (UInt8 → UInt8))
    (pattern : List UInt8) : Bool :=
  match cPattern translate pattern with
  | some (.ok (b, m)) =>
    plainly b.preg.compiled && decide (b.preg.compiled.nfa.reNsub = 0) && p b m
  | _ => false

theorem patternIs_some {p : PatternBuffer → Machine → Bool}
    (h : patternIs p translate pattern = true) :
    ∃ b m, cPattern translate pattern = some (.ok (b, m)) ∧ BackRefless b.preg.compiled ∧
      Bracketed b.preg.compiled ∧ b.preg.compiled.nfa.reNsub = 0 ∧ p b m = true := by
  unfold patternIs at h
  split at h
  · next b m hpattern =>
    rw [Bool.and_eq_true, Bool.and_eq_true, decide_eq_true_eq] at h
    obtain ⟨⟨hplain, hzero⟩, hp⟩ := h
    obtain ⟨hback, hbrackets⟩ := of_plainly hplain
    exact ⟨b, m, hpattern, hback, hbrackets, hzero, hp⟩
  · cases h

theorem searchAll_of_searchesAre {calls : List SearchCall} {results : List (Int × Registers)}
    (h : searchesAre calls results b m = true) :
    ∃ s', searchAll plenty cLocale cLower (fun _ => true) (fun _ => true) (fun _ => true)
      ⟨⟨b.preg, false, false, threeRegisters.2⟩, m, threeRegisters.1⟩ calls =
        some (s', results) := by
  unfold searchesAre at h
  split at h
  · next s' results' hrun => exact ⟨s', by rw [hrun, of_decide_eq_true h]⟩
  · cases h

theorem valid_of_mem_aSearches (hzero : b.preg.compiled.nfa.reNsub = 0) :
    ∀ call ∈ aSearches, call.Valid b := by
  intro call hcall
  simp only [aSearches, List.mem_cons, List.not_mem_nil, or_false] at hcall
  obtain rfl | rfl | rfl | rfl := hcall
  · exact ⟨by decide, by decide, by decide, .inr (.inr hzero)⟩
  · exact ⟨by decide, by decide, by decide, .inr (.inr hzero)⟩
  · exact ⟨by decide, by decide, by decide, .inr (.inr hzero)⟩
  · exact ⟨by decide, by decide, by decide, .inr (.inr hzero)⟩

theorem threeRegisters_fits : threeRegisters.2 ≠ .unallocated → threeRegisters.1.Fits :=
  reSetRegisters_fits (by simp) (by simp)

/-- `ab*`. -/
theorem searchAll_replies_abb : ∃ b m s',
    cPattern none (chars "ab*") = some (.ok (b, m)) ∧
    searchAll plenty cLocale cLower (fun _ => true) (fun _ => true) (fun _ => true)
      ⟨⟨b.preg, false, false, threeRegisters.2⟩, m, threeRegisters.1⟩ aSearches =
        some (s', aResults) ∧
    List.Forall₂ (SearchCall.Answered cLocale (fun _ => true)
      ⟨b.preg, false, false, threeRegisters.2⟩) aSearches aResults := by
  obtain ⟨b, m, h, hback, hbrackets, hzero, hrun⟩ := @patternIs_some none (chars "ab*")
    (searchesAre aSearches aResults) (by decide +kernel)
  obtain ⟨s', hrun⟩ := searchAll_of_searchesAre hrun
  obtain ⟨-, -, hcompile, -⟩ := reCompilePattern_cases h
  obtain ⟨t, t', T, nfa, root, hparse, hcompiles⟩ := compile_built (fun _ => rfl) _ hcompile _ rfl
  have hsimple : t.Types Simple := simple_of_parses (by decide +kernel) hparse
  have hsteady : ∀ call ∈ aSearches, call.Steady cLocale (fun _ => true)
      ⟨b.preg, false, false, threeRegisters.2⟩ := fun call hcall =>
    @steady_of_accepts cLocale cLower (fun _ => true) ⟨b.preg, false, false, threeRegisters.2⟩ _
      regular_cLocale (fun _ => rfl) (language_of_compiles (fun _ => rfl) hcompiles hsimple) call
      ((valid_of_mem_aSearches hzero call hcall).buffer rfl)
  obtain ⟨s'', results, hrun', hanswered⟩ := searchAll_replies regular_cLocale allocates_plenty h
    hback hbrackets false false threeRegisters_fits (valid_of_mem_aSearches hzero) hsteady
  obtain ⟨rfl, rfl⟩ := Prod.mk.inj (Option.some.inj (hrun.symm.trans hrun'))
  exact ⟨b, m, s', h, hrun, hanswered⟩

/-! ## The fastmap -/

variable (loc okBuf) in
/-- Unless the pattern can be empty, no match starts with a byte whose translation the fastmap
    leaves out. -/
def PatternBuffer.FastmapComplete (b : PatternBuffer) : Prop :=
  b.preg.canBeNull = false → ∀ map, b.preg.fastmap = some map →
    ∀ (string : List UInt8) (stop : Int) (i : Nat) (ch : UInt8),
      (b.source loc okBuf string stop).firstByte i = some ch →
      map (b.preg.translate.elim ch fun trans => trans ch) = false →
      ∀ j, ¬ Matches (b.source loc okBuf string stop) loc b.preg.syn b.preg.compiled i j

theorem Serves.fastmapComplete (hreg : Regular loc tolower) (hs : Serves loc tolower s)
    (haccurate : s.buffer.preg.fastmapAccurate = true) :
    s.buffer.FastmapComplete loc okBuf := by
  intro hnull map hmap string stop i ch hch hno j hmatch
  obtain ⟨ch', hch', hyes⟩ := hs.mayStart hreg haccurate hnull hmap hmatch
  obtain rfl := Option.some.inj (hch.symm.trans hch')
  change map (s.buffer.preg.translate.elim ch fun trans => trans ch) = true at hyes
  rw [hno] at hyes
  cases hyes

/-- The fastmap that a search has compiled, and the one that is compiled behind any searches, miss
    no match. -/
theorem fastmap_complete (hreg : Regular loc tolower)
    (hall : Allocates A ok okTree okGroup okFollow okBuf) {place : UInt8 → Bool}
    (h : reCompilePattern A loc ok okSet okTree fresh fuel translate (some place) syn pattern =
      some (.ok (b, m)))
    (hback : BackRefless b.preg.compiled) (hbrackets : Bracketed b.preg.compiled)
    (notBol notEol : Bool) {allocated : RegsAllocated} {regs : Registers}
    (hfits : allocated ≠ .unallocated → regs.Fits) {calls : List SearchCall}
    (hv : ∀ call ∈ calls, call.Valid b)
    (hsteady : ∀ call ∈ calls, call.Steady loc okBuf ⟨b.preg, notBol, notEol, allocated⟩) :
    ∃ s results, searchAll A loc tolower okBuf okGroup okFollow
        ⟨⟨b.preg, notBol, notEol, allocated⟩, m, regs⟩ calls = some (s, results) ∧
      s.buffer.preg.translate = translate ∧
      (s.buffer.preg.fastmapAccurate = true → s.buffer.FastmapComplete loc okBuf) ∧
      ∃ b', s.buffer.reCompileFastmap loc tolower s.machine = some b' ∧
        b'.preg.translate = translate ∧ b'.FastmapComplete loc okBuf := by
  let b₀ : PatternBuffer := ⟨b.preg, notBol, notEol, allocated⟩
  have hs : Serves loc tolower ⟨b₀, m, regs⟩ :=
    serves_of_pattern hall h hback hbrackets notBol notEol hfits
  have hv' : ∀ call ∈ calls, call.Valid b₀ := fun call hcall => (hv call hcall).buffer rfl
  obtain ⟨s, results, hrun, hs', hcore, -⟩ := searchAll_serves hreg hall
    (show BackRefless b₀.preg.compiled from hback) hs rfl hv' hsteady
  obtain ⟨-, ⟨htranslate, hplace, -⟩, -⟩ := reCompilePattern_cases h
  have htranslate' : s.buffer.preg.translate = translate :=
    (congrArg (fun b => b.preg.translate) hcore).trans htranslate
  have hplace' : s.buffer.preg.fastmap.isSome = true := by
    have hmap := congrArg (fun b => b.preg.fastmap.isSome) hcore
    simp only [PatternBuffer.core, Option.isSome_map] at hmap
    rw [hmap]
    exact congrArg Option.isSome hplace
  obtain ⟨b', hb', hcore', haccurate, hserves⟩ := reCompileFastmap_serves hs' hplace'
  refine ⟨s, results, hrun, htranslate', hs'.fastmapComplete hreg, b', hb', ?_, ?_⟩
  · exact (congrArg (fun b => b.preg.translate) hcore').trans htranslate'
  · exact hserves.fastmapComplete hreg haccurate

/-- `ABb` behind another letter, for a pattern with a table that makes lower case. -/
def anUpper : SearchCall := .reSearch (chars "XABb") 0 4 false

/-- The search finds it, and has compiled a fastmap with the small letter only. -/
def lettersAre (b : PatternBuffer) (m : Machine) : Bool :=
  match searchAll plenty cLocale cLower (fun _ => true) (fun _ => true) (fun _ => true)
      ⟨⟨b.preg, false, false, .unallocated⟩, m, ⟨0, [], []⟩⟩ [anUpper] with
  | some (s, results) =>
    decide (results.map Prod.fst = [1]) && s.buffer.preg.fastmapAccurate &&
      !s.buffer.preg.canBeNull && s.buffer.preg.fastmap.any fun map => map 0x61 && !map 0x78
  | none => false

/-- With the table of the small letters no match of `ab*` starts with `X`. -/
theorem fastmap_complete_upper : ∃ b m s results,
    cPattern (some cLower) (chars "ab*") = some (.ok (b, m)) ∧
    searchAll plenty cLocale cLower (fun _ => true) (fun _ => true) (fun _ => true)
      ⟨⟨b.preg, false, false, .unallocated⟩, m, ⟨0, [], []⟩⟩ [anUpper] = some (s, results) ∧
    results.map Prod.fst = [1] ∧
    ∀ j, ¬ Matches (s.buffer.source cLocale (fun _ => true) (chars "XABb") 4) cLocale
      s.buffer.preg.syn s.buffer.preg.compiled 0 j := by
  obtain ⟨b, m, h, hback, hbrackets, hzero, hletters⟩ := @patternIs_some (some cLower)
    (chars "ab*") lettersAre (by decide +kernel)
  have hvalid : ∀ call ∈ [anUpper], call.Valid b := by
    rw [List.forall_mem_singleton]
    exact ⟨by decide, by decide, by decide, .inr (.inr hzero)⟩
  have hsteady : ∀ call ∈ [anUpper], call.Steady cLocale (fun _ => true)
      ⟨b.preg, false, false, .unallocated⟩ := by
    rw [List.forall_mem_singleton]
    exact fun hlen => nomatch hlen
  obtain ⟨s, results, hrun, htranslate, hcomplete, -⟩ := fastmap_complete regular_cLocale
    allocates_plenty h hback hbrackets false false (fun hne => absurd rfl hne) hvalid hsteady
  rw [lettersAre, hrun] at hletters
  simp only [Bool.and_eq_true, decide_eq_true_eq, Bool.not_eq_true', Option.any_eq_true] at hletters
  obtain ⟨⟨⟨hresults, haccurate⟩, hnull⟩, map, hmap, -, hno⟩ := hletters
  refine ⟨b, m, s, results, h, hrun, hresults, ?_⟩
  exact hcomplete haccurate hnull map hmap (chars "XABb") 4 0 0x58 rfl (by rw [htranslate]; exact hno)

/-! ## Simple patterns -/

/-- From `i` to `j` stands a word of the language, in front of the stop. -/
def HasWord (L : Language UInt8) (text : List UInt8) (stop i j : Nat) : Prop :=
  i ≤ j ∧ j ≤ max i stop ∧ part text i j ∈ L

/-- Seen from `first`, `i` is the first place up to `last` where a word stands, and `j` is the end
    of the longest one there. -/
structure FirstWord (L : Language UInt8) (text : List UInt8) (stop first last i j : Nat) :
    Prop where
  le : min first last ≤ i ∧ i ≤ max first last
  word : HasWord L text stop i j
  none : ∀ i', Before (decide (first ≤ last)) (min first last) (max first last) i i' →
    ∀ j', ¬ HasWord L text stop i' j'
  longest : ∀ j', HasWord L text stop i j' → j' ≤ j

/-- It is returned if there is one, or its length. -/
def Spots (L : Language UInt8) (text : List UInt8) (start range stop : Int) (retLen : Bool)
    (value : Int) : Prop :=
  let first := start.toNat
  let last := (rangeEnd text.length start range).toNat
  (value = -1 ∧ (0 ≤ start ∧ start ≤ text.length → ∀ i j, min first last ≤ i → i ≤ max first last →
      ¬ HasWord L text stop.toNat i j)) ∨
    (0 ≤ start ∧ start ≤ text.length) ∧ ∃ i j : Nat, FirstWord L text stop.toNat first last i j ∧
      value = if retLen then j - start else i

variable (loc) in
/-- The string that a search compares: translated, and in upper case if the case does not matter. -/
def PatternBuffer.text (b : PatternBuffer) (string : List UInt8) : List UInt8 :=
  string.map fun ch =>
    let ch := b.preg.translate.elim ch fun trans => trans ch
    if b.preg.syn.has RE_ICASE then loc.toupper ch else ch

variable (loc okBuf) in
theorem text_source (b : PatternBuffer) (string : List UInt8) (stop : Int) :
    (b.source loc okBuf string stop).text = b.text loc string :=
  List.map_congr_left fun _ _ => rfl

variable (okBuf) in
/-- Where the contexts do not matter, a match is a word. -/
theorem matches_iff_word {L : Language UInt8}
    (haccepts : ∀ before after,
      (automaton loc b.preg.syn b.preg.compiled before after).accepts = L)
    (string : List UInt8) (stop : Int) (i j : Nat) :
    Matches (b.source loc okBuf string stop) loc b.preg.syn b.preg.compiled i j ↔
      i ≤ j ∧ j ≤ (b.text loc string).length ∧ part (b.text loc string) i j ∈ L := by
  rw [Matches, haccepts, Source.slice, text_source]
  exact Iff.rfl

/-- What is returned where matches are words of a language. -/
theorem spots_of_replies {L : Language UInt8} {string : List UInt8} {start range stop value : Int}
    {wanted retLen : Bool} {regs : Registers}
    (hmatches : ∀ i j, Matches (b.source loc okBuf string stop) loc b.preg.syn b.preg.compiled i j ↔
      i ≤ j ∧ j ≤ (b.text loc string).length ∧ part (b.text loc string) i j ∈ L)
    (hstop : stop ≤ string.length)
    (h : Replies loc okBuf b string start range stop wanted retLen value regs) :
    Spots L (b.text loc string) start range stop retLen value := by
  have hlength : (b.text loc string).length = string.length := List.length_map _
  have hrange : rangeEnd string.length start range ≤ string.length := by
    unfold rangeEnd
    omega
  -- what ends in front of the stop ends inside the string
  have hword : ∀ {i j : Nat}, i ≤ string.length → (HasWord L (b.text loc string) stop.toNat i j ↔
      j ≤ max i stop.toNat ∧
        Matches (b.source loc okBuf string stop) loc b.preg.syn b.preg.compiled i j) := by
    intro i j hi
    rw [hmatches, HasWord, hlength]
    constructor
    · rintro ⟨hij, hj, hmem⟩
      exact ⟨hj, hij, by omega, hmem⟩
    · rintro ⟨hj, hij, -, hmem⟩
      exact ⟨hij, hj, hmem⟩
  unfold Spots
  rw [hlength]
  obtain ⟨hvalue, hnone⟩ | ⟨hin, so, eo, hfound, -, hvalue, -⟩ := h
  · refine .inl ⟨hvalue, fun hin i j hi hi' hij => hnone hin i hi hi' ⟨j, ?_⟩⟩
    exact (hword (by omega)).mp hij
  refine .inr ⟨hin, ?_⟩
  obtain ⟨i, j, k, rfl, rfl, hfirst, hlongest, hk⟩ := hfound
  have hlen : ∀ {i : Nat}, i ≤ max start.toNat (rangeEnd string.length start range).toNat →
      i ≤ string.length := fun hi => by omega
  have hi := hlen hfirst.le.2
  -- the empty word stands everywhere, so the start is not moved
  have hzero : k = 0 := by
    by_contra hk'
    obtain ⟨rfl, hle, -, hno⟩ := hk hk'
    change j + k ≤ stop.toNat at hle
    have hempty : ∀ i, part (b.text loc string) i i = [] := fun i => by simp [part]
    have hmem := ((hmatches j j).mp hlongest.isMatch).2.2
    refine hno 1 Nat.one_pos (Nat.pos_of_ne_zero hk') ⟨j + 1, le_max_left _ _, ?_⟩
    exact (hmatches _ _).mpr ⟨le_rfl, by omega, by rwa [hempty] at hmem ⊢⟩
  subst hzero
  refine ⟨i, j, ⟨hfirst.le, (hword hi).mpr ⟨hlongest.le, hlongest.isMatch⟩, ?_, ?_⟩, ?_⟩
  · intro i' hbefore j' hmem
    exact hfirst.none i' hbefore ⟨j', (hword (hlen hbefore.2.1)).mp hmem⟩
  · intro j' hmem
    obtain ⟨hj', hmatch⟩ := (hword hi).mp hmem
    exact hlongest.max j' hj' hmatch
  · rw [hvalue]
    simp only [Nat.cast_zero, add_zero]

theorem spots_of_answered {L : Language UInt8} {b' : PatternBuffer} (hpreg : b'.preg = b.preg)
    (haccepts : ∀ before after,
      (automaton loc b.preg.syn b.preg.compiled before after).accepts = L)
    {call : SearchCall} {result : Int × Registers} (hvalid : call.Valid b')
    (h : call.Answered loc okBuf b' result) :
    Spots L (b.text loc call.string) call.start call.range call.stop call.retLen result.1 := by
  have htext : b.text loc call.string = b'.text loc call.string := by
    rw [PatternBuffer.text, PatternBuffer.text, hpreg]
  rw [← hpreg] at haccepts
  rw [htext]
  exact spots_of_replies (matches_iff_word okBuf haccepts call.string call.stop) hvalid.stop.2 h

/-- Each search of a run finds words of the language of a simple pattern's tree. -/
theorem searchAll_locates {t : RegTree.Tree} (hreg : Regular loc tolower)
    (hall : Allocates A ok okTree okGroup okFollow okBuf)
    (h : reCompilePattern A loc ok okSet okTree fresh fuel translate fastmap syn pattern =
      some (.ok (b, m)))
    (hparse : Parses okTree fuel loc translate okSet syn pattern t) (hsimple : t.Types Simple)
    (hback : BackRefless b.preg.compiled) (hbrackets : Bracketed b.preg.compiled)
    (notBol notEol : Bool) {allocated : RegsAllocated} {regs : Registers}
    (hfits : allocated ≠ .unallocated → regs.Fits) {calls : List SearchCall}
    (hv : ∀ call ∈ calls, call.Valid b) :
    ∃ s' results, searchAll A loc tolower okBuf okGroup okFollow
        ⟨⟨b.preg, notBol, notEol, allocated⟩, m, regs⟩ calls = some (s', results) ∧
      List.Forall₂ (fun call result => Spots (t.language (leafLanguage syn))
        (b.text loc call.string) call.start call.range call.stop call.retLen result.1) calls
        results := by
  obtain ⟨rfl, -, hcompile, -⟩ := reCompilePattern_cases h
  obtain ⟨t₀, t', T, nfa, root, hparse₀, hcompiles⟩ := compile_built hall.trees _ hcompile _ rfl
  obtain rfl := hparse₀.unique hparse
  have haccepts : ∀ before after, (automaton loc b.preg.syn b.preg.compiled before after).accepts =
      t₀.language (leafLanguage b.preg.syn) := language_of_compiles hall.sets hcompiles hsimple
  let b' : PatternBuffer := ⟨b.preg, notBol, notEol, allocated⟩
  have hs : Serves loc tolower ⟨b', m, regs⟩ :=
    serves_of_pattern hall h hback hbrackets notBol notEol hfits
  have hv' : ∀ call ∈ calls, call.Valid b' := fun call hcall => (hv call hcall).buffer rfl
  have hsteady : ∀ call ∈ calls, call.Steady loc okBuf b' := fun call hcall =>
    @steady_of_accepts loc tolower okBuf b' _ hreg hall.buffers haccepts call (hv' call hcall)
  obtain ⟨s', results, hrun, -, -, hanswered⟩ := searchAll_serves hreg hall
    (show BackRefless b'.preg.compiled from hback) hs rfl hv' hsteady
  refine ⟨s', results, hrun, ?_⟩
  refine ((List.forall₂_and_left _ _).mpr ⟨hv', hanswered⟩).imp fun call result hcall => ?_
  exact spots_of_answered (show b'.preg = b.preg from rfl) haccepts hcall.1 hcall.2

/-- `ab*`. -/
theorem searchAll_locates_abb : ∃ b m s' t,
    cPattern none (chars "ab*") = some (.ok (b, m)) ∧
    Parses (fun _ => true) 300 cLocale none (fun _ => true) RE_SYNTAX_POSIX_EXTENDED (chars "ab*")
      t ∧
    searchAll plenty cLocale cLower (fun _ => true) (fun _ => true) (fun _ => true)
      ⟨⟨b.preg, false, false, threeRegisters.2⟩, m, threeRegisters.1⟩ aSearches =
        some (s', aResults) ∧
    List.Forall₂ (fun (call : SearchCall) (result : Int × Registers) =>
      Spots (t.language (leafLanguage RE_SYNTAX_POSIX_EXTENDED)) (b.text cLocale call.string)
        call.start call.range call.stop call.retLen result.1) aSearches aResults := by
  obtain ⟨b, m, h, hback, hbrackets, hzero, hrun⟩ := @patternIs_some none (chars "ab*")
    (searchesAre aSearches aResults) (by decide +kernel)
  obtain ⟨s', hrun⟩ := searchAll_of_searchesAre hrun
  obtain ⟨-, -, hcompile, -⟩ := reCompilePattern_cases h
  obtain ⟨t, -, -, -, -, hparse, -⟩ := compile_built (fun _ => rfl) _ hcompile _ rfl
  have hsimple : t.Types Simple := simple_of_parses (by decide +kernel) hparse
  obtain ⟨s'', results, hrun', hlocates⟩ := searchAll_locates regular_cLocale allocates_plenty h
    hparse hsimple hback hbrackets false false threeRegisters_fits (valid_of_mem_aSearches hzero)
  obtain ⟨rfl, rfl⟩ := Prod.mk.inj (Option.some.inj (hrun.symm.trans hrun'))
  exact ⟨b, m, s', t, h, hparse, hrun, hlocates⟩

end Librecompat.Regexec
