/-
  Runs of title calls.

  `callResult_spec` is the step lemma: a call keeps the invariant, and `Outcome` says what becomes
  of the claimed space. The space is claimed once and stays (`Outcome.kept`), a call that fails
  leaves what it shows, and one that succeeds fills it with its title. `setproctitle_contained` puts
  the calls of a run together.
-/
import Librecompat.Setproctitle.Owns

namespace Librecompat.Setproctitle

open Librecompat.Lib
open Librecompat.Lib.Memory (StrAt Keeps Nowhere)

variable {O : Outside} {s₀ s s' : State} {args env : List (List UInt8)} {call : Call}

/-! ## One call -/

/-- What becomes of the claimed space in a call. -/
structure Outcome (O : Outside) (s s' : State) (call : Call) : Prop where
  kept : s.sptSpaceInit = true →
    s'.sptSpaceInit = true ∧ s'.sptStart = s.sptStart ∧ s'.sptSpaceLen = s.sptSpaceLen
  claims : s.sptSpaceInit = false → s'.sptSpaceInit = true → Claims s s'.sptStart s'.sptSpaceLen
  noBuf : s'.sptSpaceInit = true → s'.buf = 0 → ∃ n, O.fails n = true
  silent : s'.buf = 0 ∨ visibleTitle O s' call = none → s.sptSpaceInit = true →
    s'.mem.bytes s.sptStart s.sptSpaceLen = s.mem.bytes s.sptStart s.sptSpaceLen
  shown : s'.sptSpaceInit = true → s'.buf ≠ 0 → ∀ title, visibleTitle O s' call = some title →
    s'.mem.bytes s'.sptStart s'.sptSpaceLen = padded s'.sptSpaceLen title

theorem prepare_inv (O : Outside) (h : Inv s₀ args env s) :
    ∃ s' ready, sptPrepareSpaceLocked O s = some (s', ready) ∧ Inv s₀ args env s' ∧
      s'.sptSpaceInit = ready ∧ (s.sptSpaceInit = true → s' = s) ∧
      (s.sptSpaceInit = false → s'.sptSpaceInit = true → Claims s s'.sptStart s'.sptSpaceLen) := by
  cases hinit : s.sptSpaceInit with
  | true =>
    obtain ⟨hstart, hlen, _⟩ := h.space hinit
    refine ⟨s, true, ?_, h, hinit, fun _ => rfl, fun hf => absurd hf (by decide)⟩
    rw [sptPrepareSpaceLocked, if_pos hinit, decide_eq_true ⟨hstart, hlen⟩]
  | false =>
    obtain ⟨s', hprep, hf, hr⟩ | ⟨s', hprep, hr⟩ :=
      sptPrepareSpaceLocked_spec O h.reached hinit (h.idle hinit).1 h.count
    · have hinit' : s'.sptSpaceInit = false := (congrArg State.sptSpaceInit hf.others).trans hinit
      exact ⟨s', false, hprep, h.failed hinit hf hr, hinit', fun ht => absurd ht (by decide),
        fun _ ht => absurd (hinit'.symm.trans ht) (by decide)⟩
    · exact ⟨s', true, hprep, h.ready hinit hr, hr.init, fun ht => absurd ht (by decide),
        fun _ _ => hr.claims⟩

/-- `buf` is missing only when there was no memory for it. -/
theorem allocBuf_null (h : (allocBuf O s).buf = 0) : ∃ n, O.fails n = true := by
  unfold allocBuf at h
  split at h
  · exact ⟨_, Memory.malloc_eq_null h⟩
  · exact absurd h ‹_›

/-- Only `buf` and the memory may differ, and only by a new block. -/
theorem allocBuf_inv (O : Outside) (h : Inv s₀ args env s) (hinit : s.sptSpaceInit = true) :
    Inv s₀ args env (allocBuf O s) ∧ Keeps Nowhere s.mem (allocBuf O s).mem ∧
      ∃ m q, allocBuf O s = { s with mem := m, buf := q } := by
  unfold allocBuf
  by_cases hbuf : s.buf = 0
  · rw [if_pos hbuf]
    obtain ⟨m, hm, hblocks, hbyte⟩ | ⟨m, q, hm, hg⟩ :=
      Memory.malloc_cases O.place O.fails s.mem sptBufsize
    · have hk : Keeps Nowhere s.mem m := ⟨hblocks ▸ List.suffix_refl _, fun q _ _ => by rw [hbyte]⟩
      rw [hm]
      have hinv := h.write hk fun _ hd => hd.elim
      have heta : ({ s with mem := m } : State) = { s with mem := m, buf := 0 } := by rw [← hbuf]
      rw [heta] at hinv
      exact ⟨hinv, hk, m, 0, rfl⟩
    · rw [hm]
      exact ⟨h.newBuf hinit hg, hg.keeps, m, q, rfl⟩
  · rw [if_neg hbuf]
    exact ⟨h, Keeps.refl _ _, s.mem, s.buf, rfl⟩

/-- Writes to the claimed space and to `buf` do not change the texts that are saved. -/
theorem titleText_kept {m : Memory Unit} {D : Nat → Prop} (h : Inv s₀ args env s)
    (hk : Keeps D s.mem m) (hD : ∀ q, D q → s.Region q ∨ s.InBuf q) (call : Call) :
    titleText { s with mem := m } call = titleText s call := by
  have hread : ∀ p, (p = 0 ∨ ∃ t, s.Holds p t) → p ≠ 0 → m.readStr p = s.mem.readStr p := by
    intro p hp hne
    obtain ⟨t, ht⟩ := hp.resolve_left hne
    have ht' : m.StrAt p t := ht.str.keep hk fun q hp hq hd =>
      (hD q hd).elim (ht.apart q hp hq).1 (ht.apart q hp hq).2
    rw [ht'.readStr, ht.str.readStr]
  have hprog : prog { s with mem := m } = prog s := by
    unfold prog
    split
    · next hne => exact hread _ h.progname hne
    · rfl
  unfold titleText wholeText
  rw [hprog]
  cases call.fmt with
  | some fmt => rfl
  | none =>
    dsimp only
    by_cases h0 : s.obuf = 0
    · rw [if_pos h0, if_pos h0]
    · rw [if_neg h0, if_neg h0, hread _ h.obuf h0]

/-- With `buf` at hand there is no text, or the claimed space shows it. -/
theorem fillAndShow_spec (O : Outside) (h : Inv s₀ args env s) (hinit : s.sptSpaceInit = true)
    (hbuf : s.buf ≠ 0) (call : Call) :
    (fillBuf s call = some (s.mem, false) ∧ visibleTitle O s call = none) ∨
    ∃ m m' title, fillBuf s call = some (m, true) ∧
      showBuf O { s with mem := m } = some { s with mem := m' } ∧
      Inv s₀ args env { s with mem := m' } ∧
      visibleTitle O { s with mem := m' } call = some title ∧
      m'.bytes s.sptStart s.sptSpaceLen = padded s.sptSpaceLen title := by
  obtain ⟨hfill, htext⟩ | ⟨m, text, hfill, htext, hstr, hk⟩ :=
    fillBuf_spec (h.buf hbuf).1 h.progname_str h.obuf_str call
  · exact .inl ⟨hfill, by rw [visibleTitle, htext, Option.map_none]⟩
  · obtain ⟨_, hlen, hlive⟩ := h.space hinit
    have hD : ∀ q, Within s.buf sptBufsize q → s.Region q ∨ s.InBuf q :=
      fun q hq => .inr ⟨hbuf, hq⟩
    have hD' : ∀ q, Within s.sptStart s.sptSpaceLen q → s.Region q ∨ s.InBuf q :=
      fun q hq => .inl ⟨hinit, hq⟩
    have hinv₁ := h.write hk hD
    obtain ⟨m', hshow, hbytes, hk'⟩ := showBuf_spec O (s := { s with mem := m }) hstr
      (hk.live hlive) hlen
    have htext' : titleText { s with mem := m' } call = some text :=
      ((titleText_kept hinv₁ hk' hD' call).trans (titleText_kept h hk hD call)).trans htext
    refine .inr ⟨m, m', cstr (O.strnvis text).1, hfill, hshow, hinv₁.write hk' hD', ?_, hbytes⟩
    rw [visibleTitle, htext', Option.map_some]

theorem setproctitleInternal_spec (O : Outside) (h : Inv s₀ args env s) (call : Call) :
    ∃ s' r, setproctitleInternal O s call = some (s', r) ∧ Inv s₀ args env s' ∧
      Outcome O s s' call := by
  obtain ⟨s₁, ready, hprep, hinv₁, hready, hsame, hclaims⟩ := prepare_inv O h
  unfold setproctitleInternal
  rw [hprep, Option.bind_eq_bind, Option.bind_some]
  dsimp only
  cases ready with
  | false =>
    have hidle : ¬ s₁.sptSpaceInit = true := by rw [hready]; exact Bool.false_ne_true
    rw [if_neg Bool.false_ne_true]
    refine ⟨s₁, 0, rfl, hinv₁, fun hi => ?_, hclaims, fun hi => absurd hi hidle,
      fun _ hi => ?_, fun hi => absurd hi hidle⟩
    · rw [hsame hi]
      exact ⟨hi, rfl, rfl⟩
    · rw [hsame hi]
  | true =>
    rw [if_pos rfl]
    obtain ⟨hinv₂, hk₂, m₂, q₂, hs₂⟩ := allocBuf_inv O hinv₁ hready
    have hinit₂ : (allocBuf O s₁).sptSpaceInit = true := by rw [hs₂]; exact hready
    have hstart₂ : (allocBuf O s₁).sptStart = s₁.sptStart := by rw [hs₂]
    have hlen₂ : (allocBuf O s₁).sptSpaceLen = s₁.sptSpaceLen := by rw [hs₂]
    have hnoBuf : (allocBuf O s₁).buf = 0 → ∃ n, O.fails n = true := allocBuf_null
    generalize allocBuf O s₁ = s₂ at *
    have hkept : s.sptSpaceInit = true →
        s₂.sptSpaceInit = true ∧ s₂.sptStart = s.sptStart ∧ s₂.sptSpaceLen = s.sptSpaceLen := by
      intro hi
      rw [hstart₂, hlen₂, hsame hi]
      exact ⟨hinit₂, rfl, rfl⟩
    have hclaims₂ : s.sptSpaceInit = false → s₂.sptSpaceInit = true →
        Claims s s₂.sptStart s₂.sptSpaceLen := by
      intro hi _
      rw [hstart₂, hlen₂]
      exact hclaims hi hready
    -- before `buf` is filled nothing that is shown changes
    have hnothing : s₂.buf = 0 ∨ visibleTitle O s₂ call = none → Outcome O s s₂ call := by
      intro hno
      refine ⟨hkept, hclaims₂, fun _ => hnoBuf, fun _ hi => ?_, fun _ hbuf title htitle => ?_⟩
      · rw [hsame hi] at hk₂
        exact Memory.bytes_congr fun q hq hqn =>
          hk₂.byte q ((h.space hi).2.2 q hq hqn) fun hd => hd.elim
      · rw [hno.resolve_left hbuf] at htitle
        cases htitle
    by_cases hbuf : s₂.buf = 0
    · rw [if_pos hbuf]
      exact ⟨s₂, 0, rfl, hinv₂, hnothing (.inl hbuf)⟩
    · rw [if_neg hbuf]
      obtain ⟨hfill, hnone⟩ | ⟨m, m', title, hfill, hshow, hinv', htitle, hbytes⟩ :=
        fillAndShow_spec O hinv₂ hinit₂ hbuf call
      · rw [hfill]
        exact ⟨s₂, 0, rfl, hinv₂, hnothing (.inr hnone)⟩
      · rw [hfill, Option.bind_eq_bind, Option.bind_some]
        dsimp only
        rw [if_pos rfl, hshow]
        refine ⟨{ s₂ with mem := m' }, s₂.sptStart, rfl, hinv', hkept, hclaims₂,
          fun _ => hnoBuf, fun hno => ?_, fun _ _ title' htitle' => ?_⟩
        · rw [htitle] at hno
          exact absurd hno (by simp [hbuf])
        · rw [htitle] at htitle'
          obtain rfl := Option.some.inj htitle'
          exact hbytes

/-- `fast_update` is nothing that the invariant is about. -/
theorem Inv.fastUpdate (h : Inv s₀ args env s) (b : Bool) :
    Inv s₀ args env { s with fastUpdate := b } := by
  obtain ⟨aps, hargs, hargs'⟩ := h.args
  obtain ⟨eps, henv, henv'⟩ := h.env
  have hholds : ∀ p t, s.Holds p t → State.Holds { s with fastUpdate := b } p t :=
    fun _ _ ht => ⟨ht.str, ht.apart⟩
  exact
    { mem := h.mem
      arrays := h.arrays
      argv := h.argv
      argc := h.argc
      args := ⟨aps, hargs, hargs'.imp hholds⟩
      env := ⟨eps, henv, henv'.imp hholds⟩
      progname := h.progname.imp_right fun ⟨t, ht⟩ => ⟨t, hholds _ t ht⟩
      obuf := h.obuf.imp_right fun ⟨t, ht⟩ => ⟨t, hholds _ t ht⟩
      buf := h.buf
      space := h.space
      idle := h.idle
      count := h.count }

theorem Outcome.fastUpdate (h : Outcome O s s' call) (b : Bool) :
    Outcome O s { s' with fastUpdate := b } call :=
  ⟨h.kept, h.claims, h.noBuf, h.silent, h.shown⟩

theorem callResult_spec (O : Outside) (h : Inv s₀ args env s) (call : Call) :
    ∃ s' r, callResult O s call = some (s', r) ∧ Inv s₀ args env s' ∧ Outcome O s s' call := by
  obtain ⟨s', r, hcall, hinv, hout⟩ := setproctitleInternal_spec O h call
  unfold callResult setproctitleFast setproctitle
  rw [hcall]
  cases call.fast with
  | true =>
    by_cases hset : r ≠ 0 ∧ s'.fastUpdate = false
    · exact ⟨{ s' with fastUpdate := true }, r, by simp [hset], hinv.fastUpdate true,
        hout.fastUpdate true⟩
    · exact ⟨s', r, by simp [hset], hinv, hout⟩
  | false =>
    by_cases hset : r ≠ 0
    · exact ⟨{ s' with fastUpdate := false }, r, by simp [hset], hinv.fastUpdate false,
        hout.fastUpdate false⟩
    · exact ⟨s', r, by simp [hset], hinv, hout⟩

/-! ## Runs -/

/-- The title that a call is to show when it has led to `s`: it needs a text, a claimed space and
    `buf`. -/
def dueTitle (O : Outside) (s : State) (call : Call) : Option (List UInt8) :=
  if s.sptSpaceInit = true ∧ s.buf ≠ 0 then visibleTitle O s call else none

/-- The title that was to be shown last. -/
def lastTitle (O : Outside) : State → List Call → Option (List UInt8)
  | _, [] => none
  | s, call :: calls =>
    match step O s call with
    | none => none
    | some s' => (lastTitle O s' calls).or (dueTitle O s' call)

/-- `calls` is a run from `s` in which one call claims the space of `s'`. -/
def ClaimedIn (O : Outside) (s : State) (calls : List Call) (s' : State) : Prop :=
  ∃ before call after t, calls = before ++ call :: after ∧ run (step O) s before = some t ∧
    t.sptSpaceInit = false ∧ Claims t s'.sptStart s'.sptSpaceLen

/-- The claimed space of `s` is that of `s'`. -/
def SameSpace (s s' : State) : Prop :=
  s'.sptSpaceInit = true ∧ s'.sptStart = s.sptStart ∧ s'.sptSpaceLen = s.sptSpaceLen

/-- `buf` is missing only when an allocation has failed. -/
def Buffered (O : Outside) (s : State) : Prop :=
  s.sptSpaceInit = true → s.buf = 0 → ∃ n, O.fails n = true

theorem run_spec (O : Outside) : ∀ (calls : List Call) {s : State}, Inv s₀ args env s →
    ∃ s', run (step O) s calls = some s' ∧ Inv s₀ args env s' ∧
      (Buffered O s → Buffered O s') ∧
      (s.sptSpaceInit = true → SameSpace s s') ∧
      (s.sptSpaceInit = false → s'.sptSpaceInit = true → ClaimedIn O s calls s') ∧
      (∀ title, lastTitle O s calls = some title → s'.sptSpaceInit = true ∧
        s'.mem.bytes s'.sptStart s'.sptSpaceLen = padded s'.sptSpaceLen title) ∧
      (lastTitle O s calls = none → s.sptSpaceInit = true →
        s'.mem.bytes s.sptStart s.sptSpaceLen = s.mem.bytes s.sptStart s.sptSpaceLen)
  | [], s, h => ⟨s, rfl, h, id, fun hi => ⟨hi, rfl, rfl⟩,
      fun hf ht => absurd (hf.symm.trans ht) (by decide), fun _ ht => (by cases ht),
      fun _ _ => rfl⟩
  | call :: calls, s, h => by
    obtain ⟨s₁, r, hcall, hinv₁, hout⟩ := callResult_spec O h call
    obtain ⟨s', hrun, hinv', hbuf, hsame, hclaimed, hlast, hnone⟩ := run_spec O calls hinv₁
    have hstep : step O s call = some s₁ := by rw [step, hcall, Option.map_some]
    have hlastTitle : lastTitle O s (call :: calls) =
        (lastTitle O s₁ calls).or (dueTitle O s₁ call) := by
      rw [lastTitle, hstep]
    rw [hlastTitle]
    refine ⟨s', by rw [run_cons, hstep, Option.bind_some, hrun], hinv', fun _ => hbuf hout.noBuf,
      fun hi => ?_, fun hi hi' => ?_, fun title ht => ?_, fun hn hi => ?_⟩
    · obtain ⟨hi₁, hstart₁, hlen₁⟩ := hout.kept hi
      obtain ⟨hi', hstart', hlen'⟩ := hsame hi₁
      exact ⟨hi', hstart'.trans hstart₁, hlen'.trans hlen₁⟩
    · cases hi₁ : s₁.sptSpaceInit with
      | true =>
        obtain ⟨_, hstart', hlen'⟩ := hsame hi₁
        refine ⟨[], call, calls, s, rfl, rfl, hi, ?_⟩
        rw [hstart', hlen']
        exact hout.claims hi hi₁
      | false =>
        obtain ⟨before, call', after, t, rfl, hbefore, ht, hclaims⟩ := hclaimed hi₁ hi'
        exact ⟨call :: before, call', after, t, rfl,
          by rw [run_cons, hstep, Option.bind_some, hbefore], ht, hclaims⟩
    · cases hrest : lastTitle O s₁ calls with
      | some title' =>
        rw [hrest, Option.some_or] at ht
        obtain rfl := Option.some.inj ht
        exact hlast _ hrest
      | none =>
        rw [hrest, Option.none_or, dueTitle] at ht
        by_cases hdue : s₁.sptSpaceInit = true ∧ s₁.buf ≠ 0
        · obtain ⟨hi', hstart', hlen'⟩ := hsame hdue.1
          rw [if_pos hdue] at ht
          rw [hstart', hlen', hnone hrest hdue.1]
          exact ⟨hi', hout.shown hdue.1 hdue.2 title ht⟩
        · rw [if_neg hdue] at ht
          cases ht
    · rw [Option.or_eq_none_iff] at hn
      obtain ⟨hi₁, hstart₁, hlen₁⟩ := hout.kept hi
      have hsilent : s₁.buf = 0 ∨ visibleTitle O s₁ call = none := by
        by_cases hbuf₁ : s₁.buf = 0
        · exact .inl hbuf₁
        · exact .inr ((if_pos ⟨hi₁, hbuf₁⟩).symm.trans hn.2)
      have hlater := hnone hn.1 hi₁
      rw [hstart₁, hlen₁] at hlater
      rw [hlater, hout.silent hsilent hi]

/-- The claimed space of `s` holds the title of `call`, as far as it fits, with a NUL behind it and
    all the rest NULs. -/
def Shows (O : Outside) (s : State) (call : Call) : Prop :=
  ∃ title, visibleTitle O s call = some title ∧ 1 < s.sptSpaceLen ∧
    s.mem.bytes s.sptStart s.sptSpaceLen = padded s.sptSpaceLen title

/-- What holds of a state that a run of calls from `s₀` has led to. -/
structure Contained (O : Outside) (s₀ : State) (args env : List (List UInt8)) (calls : List Call)
    (s : State) : Prop where
  /-- The claimed space is a chain of adjacent strings from `argv[0]` on. -/
  space : s.sptSpaceInit = true → ClaimedIn O s₀ calls s
  /-- Of the memory there was at the start, only the claimed space has been written. -/
  mem : Keeps s.Region s₀.mem s.mem
  /-- Of the pointer arrays there were at the start, only `argv` has been written. -/
  arrays : ∀ a l, s₀.arrays.heap.get a = some l → s₀.argv ≠ some a →
    s.arrays.heap.get a = some l
  argv : s.argv = s₀.argv
  argc : s.argc = s₀.argc
  /-- The strings reached through `argv[i]` and `environ[i]` are what they were. -/
  reached : Reached s args env
  buffered : Buffered O s
  /-- A call with a format shows its title once the space is claimed and there is a `buf`. -/
  format : ∀ before call, calls = before ++ [call] → call.fmt ≠ none →
    s.sptSpaceInit = true → s.buf ≠ 0 → Shows O s call
  /-- The claimed space holds the title that was to be shown last. -/
  title : ∀ title, lastTitle O s₀ calls = some title → 1 < s.sptSpaceLen ∧
    s.mem.bytes s.sptStart s.sptSpaceLen = padded s.sptSpaceLen title

/-- After a call with a format the claimed space shows its title. -/
theorem shows_format {t : State} (h : Inv s₀ args env t)
    (hstep : run (step O) t [call] = some s) (hfmt : call.fmt ≠ none)
    (hinit : s.sptSpaceInit = true) (hbuf : s.buf ≠ 0) : Shows O s call := by
  obtain ⟨s', r, hcall, hinv, hout⟩ := callResult_spec O h call
  obtain rfl : s' = s := by
    rw [run_cons, step, hcall, Option.map_some] at hstep
    exact Option.some.inj hstep
  obtain ⟨text, htext⟩ := titleText_fmt hinv.progname_str hfmt
  have htitle : visibleTitle O s' call = some (cstr (O.strnvis text).1) := by
    rw [visibleTitle, htext, Option.map_some]
  exact ⟨_, htitle, (hinv.space hinit).2.1, hout.shown hinit hbuf _ htitle⟩

/-- No run of calls goes wrong or writes where it does not own. -/
theorem setproctitle_contained (h : Start s₀ args env) (calls : List Call) :
    ∃ s, run (step O) s₀ calls = some s ∧ Contained O s₀ args env calls s := by
  obtain ⟨s, hrun, hinv, hbuf, _, hclaimed, hlast, _⟩ := run_spec O calls h.inv
  refine ⟨s, hrun, hclaimed h.init, hinv.mem, hinv.arrays, hinv.argv, hinv.argc, hinv.reached,
    hbuf fun hi => absurd (h.init.symm.trans hi) Bool.false_ne_true, ?_,
    fun title ht => ⟨(hinv.space (hlast title ht).1).2.1, (hlast title ht).2⟩⟩
  rintro before call rfl hfmt hinit hbuf
  obtain ⟨t, hbefore, hinv', _⟩ := run_spec O before h.inv
  rw [run_append, hbefore, Option.bind_some] at hrun
  exact shows_format hinv' hrun hfmt hinit hbuf

/-- A process `prog -x` with an environment of one string right behind its arguments. -/
def progX : State where
  mem :=
    { blocks := [⟨1000, 12, ()⟩]
      byte := fun q => (chars "prog\x00-x\x00A=1\x00").getD (q - 1000) 0
      calls := 0 }
  arrays := { heap := (Heap.empty.set 10 [1000, 1005, 0]).set 20 [1008, 0], calls := 0 }
  argv := some 10
  argc := some 2
  environ := some 20
  sptSpaceInit := false
  sptStart := 0
  sptSpaceLen := 0
  sptProgname := 0
  buf := 0
  obuf := 0
  fastUpdate := false

theorem progX_str {p : Nat} {t : List UInt8} (h0 : 0 ∉ t) (hlo : 1000 ≤ p)
    (hhi : p + (t.length + 1) ≤ 1012) (hb : progX.mem.bytes p (t.length + 1) = t ++ [0]) :
    progX.mem.StrAt p t :=
  ⟨h0, fun _ hp hq => ⟨⟨1000, 12, ()⟩, List.mem_cons_self, Nat.le_trans hlo hp,
    Nat.lt_of_lt_of_le hq hhi⟩, hb⟩

theorem progX_start : Start progX [chars "prog", chars "-x"] [chars "A=1"] := by
  refine ⟨⟨⟨[1000, 1005], ?_, ?_⟩, ⟨[1008], ?_, ?_⟩⟩, ?_, by decide, rfl, rfl, rfl, rfl⟩
  · simp [State.argPtrs, progX, Heap.get_set_ne, upTo]
  · exact .cons (progX_str (by decide) (by decide) (by decide) (by decide))
      (.cons (progX_str (by decide) (by decide) (by decide) (by decide)) .nil)
  · simp [State.envPtrs, progX, upToNull]
  · exact .cons (progX_str (by decide) (by decide) (by decide) (by decide)) .nil
  · rintro _ ⟨⟩
    decide

/-- The second allocation of a string fails: the first call gives up after the environment has been
    copied. `strnvis` is for texts without special characters. -/
def plainLib : Outside where
  place := Memory.Allocator.bump Unit 16 (by decide) (by decide)
  fails := fun n => n = 1
  arrays := Allocator.bump (List Nat) fun _ => false
  getprogname := some ⟨chars "prog", by decide⟩
  strnvis := fun text =>
    ⟨text.take 2047 ++ List.replicate (2048 - (text.take 2047).length) 0, by
      have hle : (text.take 2047).length ≤ 2047 := List.length_take_le 2047 text
      refine ⟨?_, List.mem_append_right _ (List.mem_replicate.mpr ⟨by omega, rfl⟩)⟩
      rw [List.length_append, List.length_replicate, sptBufsize]
      omega⟩

/-- A call that gives up, one that gives the arguments back and one with a title. -/
def busyCalls : List Call :=
  [⟨false, some ⟨chars "-idle", by decide⟩, id⟩, ⟨false, none, id⟩,
    ⟨true, some ⟨chars "busy", by decide⟩, id⟩]

/-- The claimed space of `prog -x` has room for the first seven bytes of `prog: busy`. -/
theorem setproctitle_contained_progX :
    ∃ s, run (step plainLib) progX busyCalls = some s ∧
      Contained plainLib progX [chars "prog", chars "-x"] [chars "A=1"] busyCalls s ∧
      lastTitle plainLib progX busyCalls = some (chars "prog: busy") ∧
      s.mem.bytes s.sptStart s.sptSpaceLen = chars "prog: b\x00" := by
  obtain ⟨s, hrun, hcontained⟩ := setproctitle_contained (O := plainLib) progX_start busyCalls
  have hshown : (run (step plainLib) progX busyCalls).map
      (fun s => s.mem.bytes s.sptStart s.sptSpaceLen) = some (chars "prog: b\x00") := by
    decide +kernel
  rw [hrun] at hshown
  exact ⟨s, hrun, hcontained, by decide +kernel, Option.some.inj hshown⟩

end Librecompat.Setproctitle
