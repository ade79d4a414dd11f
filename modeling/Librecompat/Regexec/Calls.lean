/-
  `compat_regcomp`, and then any calls of `compat_regexec`.

  What the compiler leaves can be used as often as one likes: the states that a call adds change
  nothing for those behind it (`Prepared`). So each call of a run reports the first match, and the
  longest one there (`execAll_answers`). For a simple pattern these are the matches of the language
  of its tree (`execAll_locates`).
-/
import Librecompat.Regexec.Search
import Librecompat.Regexec.Simple

namespace Librecompat.Regexec

open Librecompat.Lib Librecompat.NodeSet Librecompat.Regcomp
open Librecompat.Grouping (NEWLINE_CHAR)
open Librecompat.RegTree (Tree)
open Librecompat.Regex

/-! ## Locales -/

/-- What is relied on of a locale: the upper case of a letter is a letter, and makes no line. -/
structure Regular (loc : Regcomp.Locale) (tolower : UInt8 → UInt8) : Prop where
  ascii : loc.Ascii
  words : ∀ ch, loc.isWordChar (loc.toupper ch) = loc.isWordChar ch
  newline : ∀ ch, (loc.toupper ch).toNat = NEWLINE_CHAR ↔ ch.toNat = NEWLINE_CHAR
  pairs : CasePairs loc.toupper tolower

/-- `tolower` in the C locale. -/
def cLower (ch : UInt8) : UInt8 := if 0x41 ≤ ch && ch ≤ 0x5a then ch + 0x20 else ch

theorem forall_byte {p : UInt8 → Prop} [DecidablePred p]
    (h : ∀ i : Fin 256, p (UInt8.ofFin i)) (ch : UInt8) : p ch := h ch.toFin

theorem regular_cLocale : Regular cLocale cLower where
  ascii := fun _ _ => rfl
  words := forall_byte (by decide +kernel)
  newline := forall_byte (by decide +kernel)
  pairs := forall_byte (by decide +kernel)

variable {A : Allocator DfaState} {loc : Regcomp.Locale} {tolower : UInt8 → UInt8}
variable {okBuf : Int → Bool}
variable {ok okSet okTree okGroup okFollow : Nat → Bool} {fresh : Nat → Int} {fuel : Nat}

/-! ## compat_regcomp -/

/-- No bracket is without characters. -/
def Bracketed (c : Compiled) : Prop :=
  ∀ (q : Nat) (node : Eclosure.Token) (opr : Nat), c.nfa.graph.nodes[q]? = some node →
    c.nfa.oprs[q]? = some opr → node.type = .simpleBracket → BitVec.ofNat SBC_MAX opr ≠ 0#256

/-- What `compat_regcomp` leaves. -/
structure Usable (loc : Regcomp.Locale) (tolower : UInt8 → UInt8) (preg : Preg) : Prop where
  ready : Ready preg.compiled
  fastmap : ∃ s, preg.fastmap = some s.map ∧ preg.canBeNull = s.canBeNull ∧
    Covers loc preg.syn preg.compiled tolower (preg.syn.has RE_ICASE) s
  translate : preg.translate = none

variable {okFastmap : Bool} {pattern : List UInt8} {cflags : Nat} {preg : Preg} {m : Machine}

/-- The steps of `re_compile_internal`. -/
theorem reCompileInternal_cases {translate : Option (UInt8 → UInt8)} {syn : RegSyntax}
    {noSub : Bool} {c : Compiled} {dfa : Regex.Dfa} {init : InitStates}
    (h : reCompileInternal A loc ok okSet okTree fresh fuel translate syn noSub pattern =
      some (.ok (c, dfa, init))) :
    compile ok loc translate okSet okTree fresh syn noSub fuel pattern = some (.ok c) ∧
      acquireInitStates A (nodeList c.initNodes) (initDfa c pattern.length) =
        some (dfa, .ok init) := by
  obtain ⟨r, hcompile, hr⟩ := Option.bind_eq_some_iff.mp h
  cases r with
  | error err => cases hr
  | ok c' =>
    obtain ⟨⟨dfa', r⟩, hinit, hr⟩ := Option.bind_eq_some_iff.mp hr
    cases r with
    | error err => cases Option.some.inj hr
    | ok init' =>
      obtain ⟨rfl, heq⟩ := Prod.mk.inj (Except.ok.inj (Option.some.inj hr))
      obtain ⟨rfl, rfl⟩ := Prod.mk.inj heq
      exact ⟨hcompile, hinit⟩

/-- The steps of `compat_regcomp`. -/
theorem compatRegcomp_cases (h : compatRegcomp A tolower loc ok okSet okTree fresh fuel okFastmap
      pattern cflags = some (.ok (preg, m))) :
    preg.syn = regcompSyntax cflags ∧
      compile ok loc none okSet okTree fresh preg.syn preg.noSub fuel pattern =
        some (.ok preg.compiled) ∧
      (∃ dfa, acquireInitStates A (nodeList preg.compiled.initNodes)
          (initDfa preg.compiled pattern.length) = some (dfa, .ok preg.init) ∧
        m = ⟨dfa, fun _ => none⟩ ∧
        ∃ s, reCompileFastmap tolower (preg.syn.has RE_ICASE) (preg.compiled.dfa loc preg.syn).nodes
            dfa.mem.heap preg.init = some s ∧ preg.fastmap = some s.map ∧
          preg.canBeNull = s.canBeNull) ∧
      preg.translate = none ∧ preg.newlineAnchor = decide (cflags &&& REG_NEWLINE ≠ 0) := by
  unfold compatRegcomp at h
  split at h
  · cases h
  obtain ⟨r, hr, h⟩ := Option.bind_eq_some_iff.mp h
  cases r with
  | error err => cases h
  | ok q =>
    obtain ⟨c, dfa, init⟩ := q
    obtain ⟨s, hs, h⟩ := Option.bind_eq_some_iff.mp h
    obtain ⟨rfl, rfl⟩ := Prod.mk.inj (Except.ok.inj (Option.some.inj h))
    obtain ⟨hcompile, hinit⟩ := reCompileInternal_cases hr
    exact ⟨rfl, hcompile, ⟨dfa, hinit, rfl, s, hs, rfl, rfl⟩, rfl, rfl⟩

/-- Nothing goes wrong but for the pattern. -/
structure Allocates (A : Allocator DfaState) (ok okTree okGroup okFollow : Nat → Bool)
    (okBuf : Int → Bool) : Prop where
  states : ∀ n, A.fails n = false
  sets : ∀ k, ok k = true
  trees : ∀ k, okTree k = true
  groups : ∀ k, okGroup k = true
  follows : ∀ k, okFollow k = true
  buffers : ∀ n, okBuf n = true

theorem prepared_of_compile (hall : Allocates A ok okTree okGroup okFollow okBuf)
    {translate : Option (UInt8 → UInt8)} {syn : RegSyntax} {noSub : Bool} {c : Compiled}
    {dfa : Regex.Dfa} {init : InitStates}
    (hcompile : compile ok loc translate okSet okTree fresh syn noSub fuel pattern = some (.ok c))
    (hinit : acquireInitStates A (nodeList c.initNodes) (initDfa c pattern.length) =
      some (dfa, .ok init))
    (hback : BackRefless c) (hbrackets : Bracketed c) :
    Ready c ∧ Cached loc syn c ⟨dfa, fun _ => none⟩ ∧ Starts c dfa init := by
  obtain ⟨t, t', T, nfa, root, -, hcompiles⟩ := compile_built hall.trees _ hcompile _ rfl
  have hready : Ready c := ready_of_compiles hall.sets hcompiles (compile_sound _ hcompile _ rfl)
    hback hbrackets
  obtain ⟨dfa', init', hrun, hcached, hstarts⟩ := acquireInitStates_spec hall.states hready
    pattern.length
  obtain ⟨rfl, heq⟩ := Prod.mk.inj (Option.some.inj (hinit.symm.trans hrun))
  obtain rfl := Except.ok.inj heq
  exact ⟨hready, hcached, hstarts⟩

theorem usable_of_regcomp (hall : Allocates A ok okTree okGroup okFollow okBuf)
    (h : compatRegcomp A tolower loc ok okSet okTree fresh fuel okFastmap pattern cflags =
      some (.ok (preg, m)))
    (hback : BackRefless preg.compiled) (hbrackets : Bracketed preg.compiled) :
    Usable loc tolower preg ∧ Prepared loc preg m := by
  obtain ⟨-, hcompile, ⟨dfa, hinit, rfl, s, hs, hmap, hnull⟩, htrans, -⟩ := compatRegcomp_cases h
  obtain ⟨hready, hcached, hstarts⟩ := prepared_of_compile hall hcompile hinit hback hbrackets
  obtain ⟨s', hfast, hcovers⟩ := reCompileFastmap_spec hready hcached hstarts
  obtain rfl := Option.some.inj (hs.symm.trans hfast)
  exact ⟨⟨hready, ⟨s, hmap, hnull, hcovers⟩, htrans⟩, hcached, hstarts⟩

/-! ## compat_regexec -/

/-- A call of `compat_regexec`; `range` is `pmatch[0]` for `REG_STARTEND`. -/
structure Call where
  string : List UInt8
  nmatch : Nat
  range : Int × Int
  eflags : Nat

/-- What it returns, and the elements of `pmatch` that it writes. -/
abbrev Result := RegErrcode × List (Int × Int)

/-- Where the search starts, and where the string ends. -/
def Call.bounds (call : Call) : Int × Int :=
  if call.eflags &&& REG_STARTEND ≠ 0 then call.range else (0, (cstr call.string).length)

/-- How many elements of `pmatch` are asked for. -/
def Call.elements (call : Call) (preg : Preg) : Nat := if preg.noSub then 0 else call.nmatch

variable (A loc okBuf okGroup okFollow preg) in
def Call.exec (m : Machine) (call : Call) : Option (Machine × Result) :=
  compatRegexec A loc okBuf preg okGroup okFollow m call.string call.nmatch call.range call.eflags

/-- The flags are known ones, the range is one of the string, and no groups are asked for. -/
structure Call.Valid (preg : Preg) (call : Call) : Prop where
  flags : call.eflags - (call.eflags &&& (REG_NOTBOL ||| REG_NOTEOL ||| REG_STARTEND)) = 0
  range : 0 ≤ call.bounds.1 ∧ call.bounds.1 ≤ call.bounds.2 ∧
    call.bounds.2 ≤ call.string.length
  small : call.string.length + 1 < BUFS_MAX
  groups : preg.noSub = true ∨ call.nmatch ≤ 1 ∨ preg.compiled.nfa.reNsub = 0

variable (loc okBuf preg) in
/-- The string that a call searches. -/
def Call.source (call : Call) : Source :=
  preg.source loc okBuf (call.string.take call.bounds.2.toNat) call.bounds.2 call.eflags

variable (loc okBuf preg) in
/-- The first match is reported, and the longest one there. -/
def Answers (call : Call) (result : Result) : Prop :=
  Reports (call.source loc okBuf preg) loc preg call.bounds.1.toNat call.bounds.2.toNat
    (call.elements preg) result.1 result.2

variable {call : Call}

theorem logsStates_of_le (hback : BackRefless preg.compiled) {nmatch : Nat} (hle : nmatch ≤ 1) :
    logsStates preg nmatch = false := by
  have hzero : preg.compiled.nbackref = 0 := hback
  simp [logsStates, hzero, hle]

/-- No states are logged for the call. -/
theorem Call.Valid.unlogged (h : call.Valid preg) (hback : BackRefless preg.compiled) :
    logsStates preg (call.elements preg - extraNmatch preg (call.elements preg)) = false := by
  refine logsStates_of_le hback ?_
  obtain hno | hone | hnone := h.groups
  · simp [Call.elements, hno]
  · have : call.elements preg ≤ call.nmatch := by
      unfold Call.elements
      split
      · exact Nat.zero_le _
      · exact le_rfl
    omega
  · unfold extraNmatch
    rw [hnone]
    split
    · omega
    · omega

/-- The upper case of a character makes the same context. -/
theorem caseFree_of_regular (hreg : Regular loc tolower) {src : Source}
    (hupper : src.toupper = loc.toupper)
    (hwords : src.wordChar = (preg.compiled.dfa loc preg.syn).wordChar) : src.CaseFree := by
  have hcontain : ∀ ch : UInt8, bitsetContain src.wordChar (loc.toupper ch).toNat =
      bitsetContain src.wordChar ch.toNat := by
    intro ch
    have hword : ∀ ch : UInt8, bitsetContain (wordChars loc) ch.toNat = loc.isWordChar ch :=
      fun ch => by
        have := contain_wordChars hreg.ascii ch.toFin
        rwa [show UInt8.ofNat (ch.toFin : Nat) = ch from UInt8.ofNat_toNat] at this
    rw [hwords, Compiled.dfa]
    split
    · rw [hword, hword, hreg.words]
    · simp
  intro _ ch
  rw [hupper, Source.charContext, Source.charContext, hcontain]
  simp only [hreg.newline]

variable (okBuf) in
theorem Usable.mayStart (hreg : Regular loc tolower) (hu : Usable loc tolower preg)
    (hnull : preg.canBeNull = false) : Plausible (call.source loc okBuf preg) loc preg.syn
      preg.compiled preg.fastmap := by
  obtain ⟨s, hmap, hs, hcovers⟩ := hu.fastmap
  intro map hmap' i hstart
  obtain rfl := Option.some.inj (hmap.symm.trans hmap')
  obtain ⟨j, -, hmatch⟩ := hstart
  exact hcovers.mayStart (hs ▸ hnull) (fun _ => hreg.pairs) hu.ready.sound hmatch

variable (loc okBuf) in
/-- The string of a call ends where its range ends. -/
theorem Call.Valid.length_source (h : call.Valid preg) :
    call.bounds.1.toNat ≤ (call.source loc okBuf preg).text.length ∧
      (call.source loc okBuf preg).text.length = call.bounds.2.toNat := by
  obtain ⟨hlo, hle, hhi⟩ := h.range
  have hlength : (call.source loc okBuf preg).rawMbs.length = call.bounds.2.toNat := by
    change (call.string.take call.bounds.2.toNat).length = _
    rw [List.length_take]
    omega
  rw [length_text, hlength]
  exact ⟨by omega, rfl⟩

/-- One call. -/
theorem exec_answers (hreg : Regular loc tolower)
    (hall : Allocates A ok okTree okGroup okFollow okBuf) (hu : Usable loc tolower preg)
    (hback : BackRefless preg.compiled) (hm : Prepared loc preg m) (hv : call.Valid preg) :
    ∃ m' result, call.exec A loc okBuf okGroup okFollow preg m = some (m', result) ∧
      Prepared loc preg m' ∧ Answers loc okBuf preg call result := by
  obtain ⟨hlo, hle, hhi⟩ := hv.range
  obtain ⟨lo, hlo'⟩ := Int.eq_ofNat_of_zero_le hlo
  obtain ⟨hi, hhi'⟩ := Int.eq_ofNat_of_zero_le (hlo.trans hle)
  have hlength : (call.source loc okBuf preg).rawMbs.length = hi := by
    rw [← length_text, (hv.length_source loc okBuf).2, hhi', Int.toNat_natCast]
  have hsearch : Searchable (call.source loc okBuf preg) loc preg.syn preg.compiled := by
    refine ⟨hall.buffers, caseFree_of_regular hreg rfl rfl, ?_, ?_, rfl⟩
    · rw [hlength]
      exact hhi'.le
    · have := hv.small
      rw [hlength]
      omega
  have hstart : lo ≤ (call.source loc okBuf preg).rawMbs.length := by omega
  obtain ⟨m', err, pmatch, hrun, hm', hreports⟩ := reSearchInternal_reports
    ⟨hreg.ascii, hu.ready, hall.states, hall.groups, hall.follows⟩ hsearch rfl
    (fun _ => hu.mayStart okBuf hreg) hm hstart hlength.ge (hv.unlogged hback)
  have herr : (if err ≠ REG_NOERROR then 1 else 0) = err := by
    obtain ⟨rfl, -⟩ | ⟨rfl, -⟩ := hreports
    · rfl
    · rfl
  refine ⟨m', (err, pmatch), ?_, hm', ?_⟩
  · unfold Call.exec compatRegexec
    rw [if_neg (not_not.mpr hv.flags)]
    change ((reSearchInternal A loc (call.source loc okBuf preg) preg okGroup okFollow m
      call.bounds.1 call.bounds.2 (call.elements preg)).bind fun q =>
        some (q.1, if q.2.1 ≠ REG_NOERROR then 1 else 0, q.2.2)) = some (m', err, pmatch)
    rw [hlo', hhi', hrun, Option.bind_some, herr]
  · rw [Answers, hlo', hhi']
    exact hreports

/-! ## Runs -/

variable (A loc okBuf okGroup okFollow preg) in
/-- One call after the other. -/
def execAll : Machine → List Call → Option (Machine × List Result)
  | m, [] => some (m, [])
  | m, call :: calls => do
    let (m, result) ← call.exec A loc okBuf okGroup okFollow preg m
    let (m, results) ← execAll m calls
    some (m, result :: results)

theorem execAll_prepared (hreg : Regular loc tolower)
    (hall : Allocates A ok okTree okGroup okFollow okBuf) (hu : Usable loc tolower preg)
    (hback : BackRefless preg.compiled) : ∀ {calls : List Call} {m : Machine},
    Prepared loc preg m → (∀ call ∈ calls, call.Valid preg) →
    ∃ m' results, execAll A loc okBuf okGroup okFollow preg m calls = some (m', results) ∧
      Prepared loc preg m' ∧ List.Forall₂ (Answers loc okBuf preg) calls results
  | [], m, hm, _ => ⟨m, [], rfl, hm, .nil⟩
  | call :: calls, m, hm, hv => by
    obtain ⟨m₁, result, hcall, hm₁, hanswers⟩ :=
      exec_answers hreg hall hu hback hm (hv call List.mem_cons_self)
    obtain ⟨m₂, results, hcalls, hm₂, hrest⟩ := execAll_prepared hreg hall hu hback hm₁
      fun call hcall => hv call (List.mem_cons_of_mem _ hcall)
    refine ⟨m₂, result :: results, ?_, hm₂, .cons hanswers hrest⟩
    simp only [execAll, hcall, hcalls, Option.bind_eq_bind, Option.bind_some]

/-! ## Simple patterns -/

/-- The text from `i` to `j`. -/
def part (text : List UInt8) (i j : Nat) : List UInt8 := (text.drop i).take (j - i)

/-- From `i` to `j` stands the leftmost word of the language, and the longest one there. -/
structure LeftmostLongest (L : Language UInt8) (text : List UInt8) (lo i j : Nat) : Prop where
  le : lo ≤ i ∧ i ≤ j ∧ j ≤ text.length
  mem : part text i j ∈ L
  leftmost : ∀ i' j', lo ≤ i' → i' < i → i' ≤ j' → j' ≤ text.length → part text i' j' ∉ L
  longest : ∀ j', j < j' → j' ≤ text.length → part text i j' ∉ L

/-- It is found if there is one, and reported if it is asked for. -/
def Locates (L : Language UInt8) (text : List UInt8) (lo elements : Nat) (result : Result) : Prop :=
  (result = (REG_NOMATCH, []) ∧
      ∀ i j, lo ≤ i → i ≤ j → j ≤ text.length → part text i j ∉ L) ∨
    (result.1 = REG_NOERROR ∧
      (∃ i j, lo ≤ i ∧ i ≤ j ∧ j ≤ text.length ∧ part text i j ∈ L) ∧
      (elements ≠ 0 → ∃ (i j : Nat) (rest : List (Int × Int)),
        result.2 = ((i : Int), (j : Int)) :: rest ∧ LeftmostLongest L text lo i j))

variable (loc preg) in
/-- The string that a call searches, in upper case if the case does not matter. -/
def Call.text (call : Call) : List UInt8 :=
  (call.string.take call.bounds.2.toNat).map fun ch =>
    if preg.syn.has RE_ICASE then loc.toupper ch else ch

/-- What is reported where matches are words of a language. -/
theorem locates_of_reports {src : Source} {L : Language UInt8} {lo elements : Nat} {result : Result}
    (hmatches : ∀ i j, Matches src loc preg.syn preg.compiled i j ↔
      i ≤ j ∧ j ≤ src.text.length ∧ part src.text i j ∈ L)
    (hstop : src.rawStop.toNat = src.text.length) (hlo : lo ≤ src.text.length)
    (h : Reports src loc preg lo src.text.length elements result.1 result.2) :
    Locates L src.text lo elements result := by
  have hstart : ∀ {i j : Nat}, i ≤ j → j ≤ src.text.length → part src.text i j ∈ L →
      Start src loc preg.syn preg.compiled i := fun hij hj hmem =>
    ⟨_, by omega, (hmatches _ _).mpr ⟨hij, hj, hmem⟩⟩
  have hmin : min lo src.text.length = lo := min_eq_left hlo
  have hmax : max lo src.text.length = src.text.length := max_eq_right hlo
  rw [Reports, hmin, hmax] at h
  obtain ⟨herr, hnil, hno⟩ | ⟨herr, ⟨i, hi, hi', j, hj, hmatch⟩, hfound⟩ := h
  · exact .inl ⟨Prod.ext herr hnil, fun i j hi hij hj hmem =>
      hno i hi (hij.trans hj) (hstart hij hj hmem)⟩
  refine .inr ⟨herr, ⟨i, j, hi, (hmatches i j).mp hmatch⟩, fun hne => ?_⟩
  obtain ⟨so, eo, rest, hpmatch, i, j, k, rfl, rfl, hfirst, hlongest, hk⟩ := hfound hne
  obtain ⟨hij, hjlen, hmem⟩ := (hmatches i j).mp hlongest.isMatch
  -- the empty word stands everywhere, so the start is not moved
  have hzero : k = 0 := by
    by_contra hk'
    obtain ⟨rfl, hle, -, hno⟩ := hk hk'
    have hempty : ∀ i, part src.text i i = [] := fun i => by simp [part]
    exact hno 1 Nat.one_pos (Nat.pos_of_ne_zero hk')
      (hstart le_rfl (by omega) (by rwa [hempty] at hmem ⊢))
  subst hzero
  refine ⟨i, j, rest, by simpa using hpmatch, ⟨hfirst.le.1, hij, hjlen⟩, hmem, ?_, ?_⟩
  · intro i' j' hlo' hlt hij' hj' hmem'
    refine hfirst.none i' ⟨hlo', by omega, ?_⟩ (hstart hij' hj' hmem')
    rw [if_pos (decide_eq_true hlo)]
    exact hlt
  · intro j' hlt hj' hmem'
    have := hlongest.max j' (by omega) ((hmatches i j').mpr ⟨by omega, hj', hmem'⟩)
    omega

variable (okBuf) in
theorem source_text (hu : Usable loc tolower preg) (call : Call) :
    (call.source loc okBuf preg).text = call.text loc preg := by
  refine List.map_congr_left fun ch _ => ?_
  change (if preg.syn.has RE_ICASE then loc.toupper (preg.translate.elim ch fun trans => trans ch)
    else preg.translate.elim ch fun trans => trans ch) = _
  rw [hu.translate]
  rfl

/-! ## In the C locale -/

/-- Storage can always be allocated. -/
def plenty : Allocator DfaState := Allocator.bump DfaState fun _ => false

theorem allocates_plenty : Allocates plenty (fun _ => true) (fun _ => true) (fun _ => true)
    (fun _ => true) fun _ => true :=
  ⟨fun _ => rfl, fun _ => rfl, fun _ => rfl, fun _ => rfl, fun _ => rfl, fun _ => rfl⟩

def cRegcomp (pattern : List UInt8) (cflags : Nat) : Option (Except RegErrcode (Preg × Machine)) :=
  compatRegcomp plenty cLower cLocale (fun _ => true) (fun _ => true) (fun _ => true) (fun _ => 0) 300
    true pattern cflags

/-- The pattern has no back references and no empty brackets. -/
def plainly (c : Compiled) : Bool :=
  decide (c.nbackref = 0) &&
    (c.nfa.graph.nodes.zip c.nfa.oprs).all fun (node, opr) =>
      node.type ≠ .simpleBracket || BitVec.ofNat SBC_MAX opr ≠ 0#256

theorem of_plainly {c : Compiled} (h : plainly c = true) : BackRefless c ∧ Bracketed c := by
  unfold plainly at h
  rw [Bool.and_eq_true, decide_eq_true_eq, List.all_eq_true] at h
  obtain ⟨hback, hbrackets⟩ := h
  refine ⟨hback, ?_⟩
  intro q node opr hnode hopr htype
  have hmem : (node, opr) ∈ c.nfa.graph.nodes.zip c.nfa.oprs := by
    refine List.mem_of_getElem? (i := q) ?_
    rw [List.getElem?_zip_eq_some]
    exact ⟨hnode, hopr⟩
  have := hbrackets _ hmem
  simpa [htype] using this

/-- The pattern has no back references and no empty brackets, and `p` holds of it. -/
def compiledIs (p : Preg → Machine → Bool) (pattern : List UInt8) (cflags : Nat) : Bool :=
  match cRegcomp pattern cflags with
  | some (.ok (preg, m)) => plainly preg.compiled && p preg m
  | _ => false

theorem compiledIs_some {p : Preg → Machine → Bool} (h : compiledIs p pattern cflags = true) :
    ∃ preg m, cRegcomp pattern cflags = some (.ok (preg, m)) ∧ BackRefless preg.compiled ∧
      Bracketed preg.compiled ∧ p preg m = true := by
  unfold compiledIs at h
  split at h
  · next preg m hcompile =>
    rw [Bool.and_eq_true] at h
    obtain ⟨hplain, hp⟩ := h
    obtain ⟨hback, hbrackets⟩ := of_plainly hplain
    exact ⟨preg, m, hcompile, hback, hbrackets, hp⟩
  · cases h

/-- The results of a run. -/
def resultsAre (calls : List Call) (results : List Result) (preg : Preg) (m : Machine) : Bool :=
  match execAll plenty cLocale (fun _ => true) (fun _ => true) (fun _ => true) preg m calls with
  | some (_, results') => results' = results
  | none => false

theorem execAll_of_resultsAre {calls : List Call} {results : List Result}
    (h : resultsAre calls results preg m = true) :
    ∃ m', execAll plenty cLocale (fun _ => true) (fun _ => true) (fun _ => true) preg m calls =
      some (m', results) := by
  unfold resultsAre at h
  split at h
  · next m' results' hrun => exact ⟨m', by rw [hrun, of_decide_eq_true h]⟩
  · cases h

/-! ## All calls of a run -/

/-- Each call of a run reports the first match, and the longest one there. -/
theorem execAll_answers (hreg : Regular loc tolower)
    (hall : Allocates A ok okTree okGroup okFollow okBuf)
    (h : compatRegcomp A tolower loc ok okSet okTree fresh fuel okFastmap pattern cflags =
      some (.ok (preg, m)))
    (hback : BackRefless preg.compiled) (hbrackets : Bracketed preg.compiled) {calls : List Call}
    (hv : ∀ call ∈ calls, call.Valid preg) :
    ∃ m' results, execAll A loc okBuf okGroup okFollow preg m calls = some (m', results) ∧
      List.Forall₂ (Answers loc okBuf preg) calls results := by
  obtain ⟨hu, hm⟩ := usable_of_regcomp hall h hback hbrackets
  obtain ⟨m', results, hrun, -, hanswers⟩ := execAll_prepared hreg hall hu hback hm hv
  exact ⟨m', results, hrun, hanswers⟩

/-- From the second of two newlines. -/
def secondNewline : Call := ⟨0x0a :: 0x0a :: chars "b", 1, (1, 3), REG_STARTEND⟩

/-- With `\n*$` the empty match in front of the newline is said to stand behind it. -/
theorem execAll_answers_newline : ∃ preg m m',
    cRegcomp (0x0a :: chars "*$") REG_NEWLINE = some (.ok (preg, m)) ∧
    execAll plenty cLocale (fun _ => true) (fun _ => true) (fun _ => true) preg m [secondNewline] =
      some (m', [(0, [(2, 2)])]) ∧
    List.Forall₂ (Answers cLocale (fun _ => true) preg) [secondNewline] [(0, [(2, 2)])] := by
  obtain ⟨preg, m, h, hback, hbrackets, hrun⟩ := @compiledIs_some (0x0a :: chars "*$") REG_NEWLINE
    (resultsAre [secondNewline] [(0, [(2, 2)])]) (by decide +kernel)
  obtain ⟨m', hrun⟩ := execAll_of_resultsAre hrun
  have hvalid : ∀ call ∈ [secondNewline], call.Valid preg := by
    rw [List.forall_mem_singleton]
    exact ⟨by decide, by decide, by decide, .inr (.inl (by decide))⟩
  obtain ⟨m'', results, hrun', hanswers⟩ :=
    execAll_answers regular_cLocale allocates_plenty h hback hbrackets hvalid
  obtain ⟨rfl, rfl⟩ := Prod.mk.inj (Option.some.inj (hrun.symm.trans hrun'))
  exact ⟨preg, m, m', h, hrun, hanswers⟩

def inXabby : Call := ⟨chars "xabby", 1, (0, 0), 0⟩

/-- Behind a run each table leads where the automaton goes. -/
theorem execAll_tables (hreg : Regular loc tolower)
    (hall : Allocates A ok okTree okGroup okFollow okBuf)
    (h : compatRegcomp A tolower loc ok okSet okTree fresh fuel okFastmap pattern cflags =
      some (.ok (preg, m)))
    (hback : BackRefless preg.compiled) (hbrackets : Bracketed preg.compiled) {calls : List Call}
    (hv : ∀ call ∈ calls, call.Valid preg) :
    ∃ m' results, execAll A loc okBuf okGroup okFollow preg m calls = some (m', results) ∧
      ∀ state trtable, m'.trtable state = some trtable →
        ∃ st, m'.dfa.mem.heap.get state = some st ∧ ∀ ch,
          Leads loc preg.syn preg.compiled m'.dfa st.nodes ch (trtable ch) := by
  obtain ⟨hu, hm⟩ := usable_of_regcomp hall h hback hbrackets
  obtain ⟨m', results, hrun, hm', -⟩ := execAll_prepared hreg hall hu hback hm hv
  refine ⟨m', results, hrun, fun state trtable htable => ?_⟩
  obtain ⟨st, hst, hleads⟩ := hm'.cached.tables state trtable htable
  exact ⟨st, hst.live, hleads⟩

/-- `ab*` in `xabby`. -/
theorem execAll_tables_abb : ∃ preg m m', cRegcomp (chars "ab*") 0 = some (.ok (preg, m)) ∧
    execAll plenty cLocale (fun _ => true) (fun _ => true) (fun _ => true) preg m [inXabby] =
      some (m', [(0, [(1, 4)])]) ∧
    ∀ state trtable, m'.trtable state = some trtable →
      ∃ st, m'.dfa.mem.heap.get state = some st ∧ ∀ ch,
        Leads cLocale preg.syn preg.compiled m'.dfa st.nodes ch (trtable ch) := by
  obtain ⟨preg, m, h, hback, hbrackets, hrun⟩ := @compiledIs_some (chars "ab*") 0
    (resultsAre [inXabby] [(0, [(1, 4)])]) (by decide +kernel)
  obtain ⟨m', hrun⟩ := execAll_of_resultsAre hrun
  have hvalid : ∀ call ∈ [inXabby], call.Valid preg := by
    rw [List.forall_mem_singleton]
    exact ⟨by decide, by decide, by decide, .inr (.inl (by decide))⟩
  obtain ⟨m'', results, hrun', htables⟩ :=
    execAll_tables regular_cLocale allocates_plenty h hback hbrackets hvalid
  obtain ⟨rfl, rfl⟩ := Prod.mk.inj (Option.some.inj (hrun.symm.trans hrun'))
  exact ⟨preg, m, m', h, hrun, htables⟩

/-- Of a simple pattern each call of a run finds the leftmost word of the language of the tree that
    the parser has made, and the longest one there. -/
theorem execAll_locates {t : Tree} (hreg : Regular loc tolower)
    (hall : Allocates A ok okTree okGroup okFollow okBuf)
    (h : compatRegcomp A tolower loc ok okSet okTree fresh fuel okFastmap pattern cflags =
      some (.ok (preg, m)))
    (hparse : Parses okTree fuel loc none okSet preg.syn pattern t) (hsimple : t.Types Simple)
    (hback : BackRefless preg.compiled) (hbrackets : Bracketed preg.compiled) {calls : List Call}
    (hv : ∀ call ∈ calls, call.Valid preg) :
    ∃ m' results, execAll A loc okBuf okGroup okFollow preg m calls = some (m', results) ∧
      List.Forall₂ (fun call result => Locates (t.language (leafLanguage preg.syn))
        (call.text loc preg) call.bounds.1.toNat (call.elements preg) result) calls results := by
  obtain ⟨-, hcompile, -⟩ := compatRegcomp_cases h
  obtain ⟨t₀, t', T, nfa, root, hparse₀, hcompiles⟩ := compile_built hall.trees _ hcompile _ rfl
  obtain rfl := hparse₀.unique hparse
  obtain ⟨hu, hm⟩ := usable_of_regcomp hall h hback hbrackets
  obtain ⟨m', results, hrun, -, hanswers⟩ := execAll_prepared hreg hall hu hback hm hv
  refine ⟨m', results, hrun, ?_⟩
  refine ((List.forall₂_and_left _ _).mpr ⟨hv, hanswers⟩).imp fun call result hcall => ?_
  obtain ⟨hvalid, hreports⟩ := hcall
  obtain ⟨hle, hlength⟩ := hvalid.length_source loc okBuf
  have hmatches : ∀ i j, Matches (call.source loc okBuf preg) loc preg.syn preg.compiled i j ↔
      i ≤ j ∧ j ≤ (call.source loc okBuf preg).text.length ∧
        part (call.source loc okBuf preg).text i j ∈ t₀.language (leafLanguage preg.syn) := by
    intro i j
    rw [Matches, language_of_compiles hall.sets hcompiles hsimple]
    rfl
  rw [← source_text okBuf hu]
  refine locates_of_reports hmatches hlength.symm hle ?_
  rw [hlength]
  exact hreports

/-- `ab*` in `xabby`. -/
theorem execAll_locates_abb : ∃ preg m m' t, cRegcomp (chars "ab*") 0 = some (.ok (preg, m)) ∧
    Parses (fun _ => true) 300 cLocale none (fun _ => true) preg.syn (chars "ab*") t ∧
    execAll plenty cLocale (fun _ => true) (fun _ => true) (fun _ => true) preg m [inXabby] =
      some (m', [(0, [(1, 4)])]) ∧
    List.Forall₂ (fun (call : Call) result => Locates (t.language (leafLanguage preg.syn))
        (call.text cLocale preg) call.bounds.1.toNat (call.elements preg) result)
      [inXabby] [(0, [(1, 4)])] := by
  obtain ⟨preg, m, h, hback, hbrackets, hrun⟩ := @compiledIs_some (chars "ab*") 0
    (resultsAre [inXabby] [(0, [(1, 4)])]) (by decide +kernel)
  obtain ⟨m', hrun⟩ := execAll_of_resultsAre hrun
  obtain ⟨hsyn, hcompile, -⟩ := compatRegcomp_cases h
  obtain ⟨t, -, -, -, -, hparse, -⟩ := compile_built (fun _ => rfl) _ hcompile _ rfl
  have hsimple : t.Types Simple := simple_of_parses
    (show parsesSimple preg.syn (chars "ab*") = true by rw [hsyn]; decide +kernel) hparse
  have hvalid : ∀ call ∈ [inXabby], call.Valid preg := by
    rw [List.forall_mem_singleton]
    exact ⟨by decide, by decide, by decide, .inr (.inl (by decide))⟩
  obtain ⟨m'', results, hrun', hlocates⟩ :=
    execAll_locates regular_cLocale allocates_plenty h hparse hsimple hback hbrackets hvalid
  obtain ⟨rfl, rfl⟩ := Prod.mk.inj (Option.some.inj (hrun.symm.trans hrun'))
  exact ⟨preg, m, m', t, h, hparse, hrun, hlocates⟩

end Librecompat.Regexec
