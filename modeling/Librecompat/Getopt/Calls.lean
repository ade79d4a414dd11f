/-
  A call of `_getopt_internal_r` as a step of a scanner over a list.

  `Scan` is what is left of the state when the array is forgotten: the text that is still to be
  handled in the current element, the options so far, the non-options skipped so far and the
  elements to come. `Step` is a call that returns something else than the end, `Stop` one that ends
  the scan. `At` says that `argv` and the data of `getopt` stand for such a state, and
  `Ready.outcome` that each call is a `Step` or a `Stop`.
-/
import Librecompat.Getopt.Elements
import Librecompat.Getopt.Taken

namespace Librecompat.Getopt

/-! ## The scanner -/

structure Scan where
  text : Str
  C : List CString
  N : List CString
  R : List CString

/-- A call that handles an option, or hands out a non-option. -/
inductive Step (a : Args) (o : Order) : Scan → Taken → Scan → Prop
  | short {mallocOk printErrors : Bool} {text : Str} {C N next : List CString} {e : CString}
      {t : Taken} (htext : text ≠ [])
      (ht : takeShort a mallocOk a.shortopts printErrors text e next = some t) :
      Step a o ⟨text, C, N, e :: next⟩ t
        ⟨t.nextchar.getD [], C ++ (e :: next).take t.taken, N, (e :: next).drop t.taken⟩
  | option {mallocOk printErrors : Bool} {C N R next : List CString} {e : CString} {t : Taken}
      (hlook : look o R = .option e next)
      (ht : takeOption a mallocOk a.shortopts printErrors e next = some t) :
      Step a o ⟨[], C, N, R⟩ t
        ⟨t.nextchar.getD [], C ++ (e :: next).take t.taken, N ++ skipped o R,
          (e :: next).drop t.taken⟩
  | plain {C N R next : List CString} {e : CString} (hlook : look o R = .plain e next) :
      Step a o ⟨[], C, N, R⟩ { ret := 1, optarg := some e.1, taken := 1 } ⟨[], C ++ [e], N, next⟩

/-- The end of the scan, with the options `C` and the other elements `N`. -/
inductive Stop (o : Order) : Scan → List CString → List CString → Prop
  | mk {C N R dash left : List CString} (hlook : look o R = .stop dash left) :
      Stop o ⟨[], C, N, R⟩ (C ++ dash) (N ++ skipped o R ++ left)

/-! ## The state between two calls -/

/-- The ordering that `_getopt_initialize` chooses. -/
def Args.ordering (a : Args) : Order := (chooseOrdering a).1

variable {a : Args} {front post : List (Option CString)} {argv : List (Option CString)}
  {d : GetoptData} {s : Scan}

/-- `argv` and the data stand for the state `s` of the scanner. -/
structure At (a : Args) (front post : List (Option CString)) (argv : List (Option CString))
    (d : GetoptData) (s : Scan) : Prop where
  layout : ∃ P D, Layout a argv (clampNonopts d) front P s.N D s.R post ∧ P ++ D = s.C
  text : d.nextchar.getD [] = s.text
  inside : s.text ≠ [] → s.R ≠ [] ∧ clampNonopts d = d
  ordering : d.ordering = a.ordering
  skip : a.ordering ≠ .permute → s.N = []
  initialized : d.initialized = true
  front : 0 < front.length

theorem chooseOrdering_snd : (chooseOrdering a).2 = a.shortopts := by
  unfold chooseOrdering Args.shortopts
  by_cases h1 : a.optstring.1.head? = some 45
  · rw [if_pos h1, if_pos (.inl h1)]
  · rw [if_neg h1]
    by_cases h2 : a.optstring.1.head? = some 43
    · rw [if_pos h2, if_pos (.inr h2)]
    · have hno : ¬ (a.optstring.1.head? = some 45 ∨ a.optstring.1.head? = some 43) :=
        fun h => h.elim h1 h2
      rw [if_neg h2, if_neg hno]
      split <;> rfl

theorem prepare_initialized (hind : d.optind ≠ 0) (hinit : d.initialized = true) :
    prepare a d = ({ d with optarg := none }, a.shortopts) := by
  unfold prepare Args.shortopts
  dsimp only
  rw [if_neg (by simp [hind, hinit])]
  split <;> rfl

theorem prepare_fresh (h : d.optind = 0 ∨ d.initialized = false) :
    prepare a d = ({ d with
      optarg := none, optind := if d.optind = 0 then 1 else d.optind,
      firstNonopt := if d.optind = 0 then 1 else d.optind,
      lastNonopt := if d.optind = 0 then 1 else d.optind, nextchar := none,
      ordering := a.ordering, initialized := true }, a.shortopts) := by
  unfold prepare getoptInitialize
  dsimp only
  rw [if_pos (by simpa using h), chooseOrdering_snd]
  rfl

/-- The call on the data at its start. -/
def callPrepared (a : Args) (mallocOk : Bool) (argv : List (Option CString)) (d : GetoptData) :
    Option (World × Int) :=
  let printErrors := d.opterr && a.shortopts.head? ≠ some 58
  if d.nextchar.getD [] = [] then
    nextElement a mallocOk a.shortopts printErrors (World.start argv d)
  else shortOption a mallocOk a.shortopts printErrors (World.start argv d)

theorem getoptInternalR_eq (hargc : 1 ≤ a.argc) (mallocOk : Bool) {d' : GetoptData}
    (hprep : prepare a d = (d', a.shortopts)) :
    getoptInternalR a mallocOk argv d = callPrepared a mallocOk argv d' := by
  unfold getoptInternalR callPrepared
  dsimp only
  rw [if_neg (by omega), hprep]
  cases d'.nextchar with
  | none => rfl
  | some text => cases text <;> rfl

/-! ## One call -/

theorem Layout.congr {P N D R : List CString} {d' : GetoptData}
    (h : Layout a argv d front P N D R post) (hfirst : d'.firstNonopt = d.firstNonopt)
    (hlast : d'.lastNonopt = d.lastNonopt) (hoptind : d'.optind = d.optind) :
    Layout a argv d' front P N D R post :=
  ⟨h.argv, hfirst ▸ h.first, by rw [hlast, hfirst]; exact h.last,
    by rw [hoptind, hlast]; exact h.optind, by rw [hoptind]; exact h.argc⟩

/-- Passing over elements. -/
theorem Layout.advance {P N D R : List CString} {d' : GetoptData} {k : Nat}
    (h : Layout a argv d front P N D R post) (hk : k ≤ R.length)
    (hfirst : d'.firstNonopt = d.firstNonopt) (hlast : d'.lastNonopt = d.lastNonopt)
    (hoptind : d'.optind = d.optind + k) :
    Layout a argv d' front P N (D ++ R.take k) (R.drop k) post := by
  obtain ⟨hargv, hf, hl, ho, hargc⟩ := h
  refine ⟨?_, hfirst ▸ hf, by rw [hlast, hfirst]; exact hl, ?_, ?_⟩
  · have hsplit : R.map some ++ post = (R.take k).map some ++ ((R.drop k).map some ++ post) := by
      rw [← List.append_assoc, ← List.map_append, List.take_append_drop]
    rw [hargv, hsplit]
    simp
  · rw [hoptind, hlast, List.length_append, List.length_take, Nat.min_eq_left hk]
    omega
  · rw [hargc, hoptind, List.length_drop]
    omega

theorem At.optind_pos (h : At a front post argv d s) : 0 < d.optind := by
  obtain ⟨P, D, hl, -⟩ := h.layout
  have hfront := h.front
  have hind : (clampNonopts d).optind = d.optind := by rw [clampNonopts_eq]
  have h1 := hl.first
  have h2 := hl.last
  have h3 := hl.optind
  omega

/-- A call starts with `optarg` set to null. -/
theorem At.prepare (h : At a front post argv d s) :
    ∃ d', Getopt.prepare a d = (d', a.shortopts) ∧ d'.optarg = none ∧
      At a front post argv d' s := by
  refine ⟨_, prepare_initialized (Nat.pos_iff_ne_zero.mp h.optind_pos) h.initialized, rfl, ?_⟩
  obtain ⟨P, D, hl, hC⟩ := h.layout
  have hclamp : clampNonopts { d with optarg := none } =
      { clampNonopts d with optarg := none } := by
    rw [clampNonopts_eq, clampNonopts_eq]
  refine ⟨⟨P, D, ?_, hC⟩, h.text, fun ht => ⟨(h.inside ht).1, ?_⟩, h.ordering, h.skip,
    h.initialized, h.front⟩
  · rw [hclamp]
    exact hl.congr rfl rfl rfl
  · rw [hclamp, (h.inside ht).2]

/-- What an option leaves behind. -/
theorem at_apply {P N D : List CString} {e : CString} {next : List CString} {text : Str}
    {t : Taken} (hl : Layout a argv d front P N D (e :: next) post)
    (hord : d.ordering = a.ordering) (hskip : a.ordering ≠ .permute → N = [])
    (hinit : d.initialized = true) (hfront : 0 < front.length) (ht : Advances text next t) :
    At a front post argv (t.apply a (World.start argv d)).data
        ⟨t.nextchar.getD [], P ++ D ++ (e :: next).take t.taken, N,
          (e :: next).drop t.taken⟩ ∧
      clampNonopts (t.apply a (World.start argv d)).data =
        (t.apply a (World.start argv d)).data := by
  have hadv : Layout a argv (t.apply a (World.start argv d)).data front P N
      (D ++ (e :: next).take t.taken) ((e :: next).drop t.taken) post :=
    hl.advance (by simpa using ht.le) rfl rfl rfl
  refine ⟨⟨⟨P, D ++ (e :: next).take t.taken, ?_, (List.append_assoc _ _ _).symm⟩, rfl,
    fun htext => ⟨?_, hadv.clamp⟩, hord, hskip, hinit, hfront⟩, hadv.clamp⟩
  · rw [hadv.clamp]
    exact hadv
  · -- the element stays at hand only when nothing is passed over
    rcases Nat.eq_zero_or_pos t.taken with h0 | hpos
    · rw [h0]
      exact List.cons_ne_nil e next
    · exact absurd (ht.boundary hpos) htext

theorem nextElement_clamp (mallocOk : Bool) (optstring : Str) (printErrors : Bool) :
    nextElement a mallocOk optstring printErrors (World.start argv (clampNonopts d)) =
      nextElement a mallocOk optstring printErrors (World.start argv d) := by
  unfold nextElement
  dsimp only
  rw [clampNonopts_idem]

theorem clampNonopts_keeps (d : GetoptData) :
    clampNonopts d = { d with firstNonopt := (clampNonopts d).firstNonopt,
                              lastNonopt := (clampNonopts d).lastNonopt } := by
  rw [clampNonopts_eq]

/-- What a call makes of the state `s`. -/
inductive Outcome (a : Args) (front post : List (Option CString)) (s : Scan) :
    Option (World × Int) → Prop
  | stop {w : World} {C N : List CString} (hstop : Stop a.ordering s C N)
      (hat : At a front post w.argv w.data ⟨[], C, [], N⟩) (hoptarg : w.data.optarg = none) :
      Outcome a front post s (some (w, -1))
  | step {w : World} {t : Taken} {s' : Scan} (hstep : Step a a.ordering s t s')
      (hat : At a front post w.argv w.data s') (hclamp : clampNonopts w.data = w.data)
      (hoptarg : w.data.optarg = t.optarg) (hdiag : w.diag = t.diag) :
      Outcome a front post s (some (w, t.ret))

/-- A call that goes on to the next element. -/
theorem nextElement_outcome {P D C N R : List CString} (mallocOk printErrors : Bool)
    (hl : Layout a argv d front P N D R post) (hC : P ++ D = C) (htext : d.nextchar.getD [] = [])
    (hord : d.ordering = a.ordering) (hskip : a.ordering ≠ .permute → N = [])
    (hinit : d.initialized = true) (hfront : 0 < front.length) (hopt : d.optarg = none)
    (hm : ∀ e next, look a.ordering R = .option e next → ¬ MinusOne a a.shortopts e next) :
    Outcome a front post ⟨[], C, N, R⟩
      (nextElement a mallocOk a.shortopts printErrors (World.start argv d)) := by
  subst hC
  rw [← hord] at hskip
  cases hlook : look a.ordering R with
  | stop dash left =>
    obtain ⟨w, hcall, ⟨P', D', hl', hPD⟩, hword, hwinit, hwnext, hwopt⟩ :=
      nextElement_stop hl hskip (hord ▸ hlook)
    rw [hcall]
    rw [hord] at hl'
    refine .stop ⟨hlook⟩ ⟨⟨P', D', hl', hPD⟩, ?_, fun hne => absurd rfl hne, hword.trans hord,
      fun _ => rfl, hwinit.trans hinit, hfront⟩ (hwopt.trans hopt)
    rw [hwnext]
    exact htext
  | plain e next =>
    obtain ⟨hret, hno, hR, argv', d', P', D', hcall, hl', hPD, hd'⟩ :=
      nextElement_plain hl hskip (hord ▸ hlook)
    obtain rfl : N = [] := hskip (by rw [hret]; decide)
    have hadv : Layout a argv' { d' with optarg := some e.1, optind := d'.optind + 1 } front P' []
        (D' ++ [e]) next post := hl'.advance (Nat.le_add_left 1 _) rfl rfl rfl
    rw [hcall]
    refine .step (.plain hlook) ⟨⟨P', D' ++ [e], ?_, ?_⟩, ?_, fun hne => absurd rfl hne, ?_,
      fun _ => rfl, ?_, hfront⟩ hadv.clamp rfl rfl
    · rw [hadv.clamp]
      exact hadv
    · rw [← List.append_assoc, hPD]
    · rw [hd']
      exact htext
    · rw [hd']
      exact hord
    · rw [hd']
      exact hinit
  | option e next =>
    obtain ⟨hno, -, -, argv', d', P', D', hcall, hl', hPD, hd'⟩ :=
      nextElement_option hl hskip (hord ▸ hlook)
    have hopt' : d'.optarg = none := by rw [hd']; exact hopt
    obtain ⟨t, ht, hoption⟩ := @optionElement_eq a mallocOk a.shortopts printErrors argv' d' e next
      hopt' ⟨hl'.rest.argc, hl'.rest.get⟩ hno (hm e next hlook)
    rw [hcall, hoption, ← hPD]
    rw [hord] at hl'
    have hskip' : a.ordering ≠ .permute → N ++ skipped a.ordering R = [] := by
      intro hne
      rw [hskip (hord ▸ hne), List.nil_append]
      exact if_neg hne
    obtain ⟨hat, hclamp⟩ := at_apply hl' (by rw [hd']; exact hord) hskip'
      (by rw [hd']; exact hinit) hfront (takeOption_advances ht)
    exact .step (.option hlook ht) hat hclamp rfl rfl

/-- A call that goes on in an element. -/
theorem shortOption_outcome (mallocOk printErrors : Bool) (h : At a front post argv d s)
    (htext : s.text ≠ []) (hopt : d.optarg = none) :
    Outcome a front post s
      (shortOption a mallocOk a.shortopts printErrors (World.start argv d)) := by
  obtain ⟨text, C, N, R⟩ := s
  obtain ⟨⟨P, D, hl, rfl⟩, hnext, hinside, hord, hskip, hinit, hfront⟩ := h
  dsimp only at hl hnext htext hinside hskip
  obtain ⟨hR, hclamp⟩ := hinside htext
  obtain ⟨e, next, rfl⟩ := List.exists_cons_of_ne_nil hR
  rw [hclamp] at hl
  have hsome : d.nextchar = some text := by
    cases hd : d.nextchar with
    | none =>
      rw [hd] at hnext
      exact absurd hnext.symm htext
    | some text' =>
      rw [hd] at hnext
      exact congrArg some hnext
  obtain ⟨t, ht⟩ := @takeShort_isSome a mallocOk a.shortopts printErrors e next text htext
  rw [shortOption_eq hopt hsome ⟨hl.rest.argc, hl.rest.get⟩, ht, Option.map_some]
  obtain ⟨hat, hclamp'⟩ := at_apply hl hord hskip hinit hfront (takeShort_advances ht)
  exact .step (.short htext ht) hat hclamp' rfl rfl

theorem callPrepared_outcome (mallocOk : Bool) (h : At a front post argv d s)
    (hopt : d.optarg = none)
    (hm : ∀ e next, s.text = [] → look a.ordering s.R = .option e next →
      ¬ MinusOne a a.shortopts e next) :
    Outcome a front post s (callPrepared a mallocOk argv d) := by
  unfold callPrepared
  dsimp only
  by_cases h0 : s.text = []
  · have hkeep := clampNonopts_keeps d
    obtain ⟨P, D, hl, hC⟩ := h.layout
    rw [if_pos (h.text.trans h0), ← nextElement_clamp]
    obtain ⟨text, C, N, R⟩ := s
    obtain rfl : text = [] := h0
    refine nextElement_outcome _ _ hl hC ?_ ?_ h.skip ?_ h.front ?_ fun e next => hm e next rfl
    · rw [hkeep]
      exact h.text
    · rw [hkeep]
      exact h.ordering
    · rw [hkeep]
      exact h.initialized
    · rw [hkeep]
      exact hopt
  · rw [if_neg fun hne => h0 (h.text.symm.trans hne)]
    exact shortOption_outcome _ _ h h0 hopt

/-- The next call begins in the state `s`, after other calls or as the first one. -/
def Ready (a : Args) (front post argv : List (Option CString)) (d : GetoptData) (s : Scan) : Prop :=
  ∃ d', prepare a d = (d', a.shortopts) ∧ d'.optarg = none ∧ At a front post argv d' s

theorem At.ready (h : At a front post argv d s) : Ready a front post argv d s := h.prepare

theorem Ready.argc_pos (h : Ready a front post argv d s) : 1 ≤ a.argc := by
  obtain ⟨d', -, -, hat⟩ := h
  obtain ⟨P, D, hl, -⟩ := hat.layout
  have h0 := hat.front
  have h1 := hl.first
  have h2 := hl.last
  have h3 := hl.optind
  have h4 := hl.argc
  omega

theorem Ready.outcome (mallocOk : Bool) (h : Ready a front post argv d s)
    (hm : ∀ e next, s.text = [] → look a.ordering s.R = .option e next →
      ¬ MinusOne a a.shortopts e next) :
    Outcome a front post s (getoptInternalR a mallocOk argv d) := by
  have hargc := h.argc_pos
  obtain ⟨d', hprep, hopt, hat⟩ := h
  rw [getoptInternalR_eq hargc mallocOk hprep]
  exact callPrepared_outcome mallocOk hat hopt hm

/-- The first call of a run, which starts at `optind` or behind the program name. -/
theorem ready_fresh {R : List CString} (hfresh : d.optind = 0 ∨ d.initialized = false)
    (hargv : argv = front ++ (R.map some ++ post)) (hargc : a.argc = front.length + R.length)
    (hfront : front.length = if d.optind = 0 then 1 else d.optind) :
    Ready a front post argv d ⟨[], [], [], R⟩ := by
  refine ⟨_, prepare_fresh hfresh, rfl, ?_⟩
  have hpos : 0 < front.length := by
    rw [hfront]
    split <;> omega
  refine ⟨⟨[], [], ?_, rfl⟩, rfl, fun hne => absurd rfl hne, rfl, fun _ => rfl, rfl, hpos⟩
  rw [clampNonopts_of_le (Nat.le_refl _) (Nat.le_refl _)]
  exact ⟨hargv, hfront.symm, rfl, rfl, by rw [hargc, hfront]⟩

/-- The array is cut into the elements before `k`, the ones to scan and the ones from `argc` on. -/
theorem split_argv {k : Nat} {R : List CString} (hk : k ≤ a.argc) (hlen : a.argc ≤ argv.length)
    (hR : (argv.take a.argc).drop k = R.map some) :
    argv = argv.take k ++ (R.map some ++ argv.drop a.argc) ∧
      a.argc = (argv.take k).length + R.length ∧ (argv.take k).length = k := by
  have htake : (argv.take a.argc).take k = argv.take k := by
    rw [List.take_take, Nat.min_eq_left hk]
  have hlenk : (argv.take k).length = k := by
    rw [List.length_take]
    omega
  refine ⟨?_, ?_, hlenk⟩
  · rw [← hR, ← htake, ← List.append_assoc, List.take_append_drop, List.take_append_drop]
  · have hlenR := congrArg List.length hR
    rw [List.length_drop, List.length_take, List.length_map] at hlenR
    omega

/-! ## Runs -/

/-- Calls one after the other, each with an outcome of `malloc`. -/
def calls (a : Args) : List Bool → List (Option CString) → GetoptData → Option (List (World × Int))
  | [], _, _ => some []
  | mallocOk :: ms, argv, d => do
    let o ← getoptInternalR a mallocOk argv d
    let outs ← calls a ms o.1.argv o.1.data
    some (o :: outs)

/-- What the caller gets from a call. -/
def reported (o : World × Int) : Int × Option Str := (o.2, o.1.data.optarg)

/-- A run of the scanner. -/
inductive Steps (a : Args) (o : Order) : Scan → List Taken → Scan → Prop
  | nil (s : Scan) : Steps a o s [] s
  | cons {s s' s'' : Scan} {t : Taken} {ts : List Taken} (h : Step a o s t s')
      (hs : Steps a o s' ts s'') : Steps a o s (t :: ts) s''

theorem calls_cons {mallocOk : Bool} {ms : List Bool} {outs : List (World × Int)}
    (h : calls a (mallocOk :: ms) argv d = some outs) :
    ∃ o outs', getoptInternalR a mallocOk argv d = some o ∧
      calls a ms o.1.argv o.1.data = some outs' ∧ outs = o :: outs' := by
  obtain ⟨o, ho, hrest⟩ := Option.bind_eq_some_iff.mp h
  obtain ⟨outs', houts, heq⟩ := Option.bind_eq_some_iff.mp hrest
  exact ⟨o, outs', ho, houts, (Option.some.inj heq).symm⟩

theorem length_calls {ms : List Bool} {outs : List (World × Int)}
    (h : calls a ms argv d = some outs) : outs.length = ms.length := by
  induction ms generalizing argv d outs with
  | nil => exact congrArg List.length (Option.some.inj h).symm
  | cons mallocOk ms ih =>
    obtain ⟨o, outs', -, hrest, rfl⟩ := calls_cons h
    rw [List.length_cons, List.length_cons, ih hrest]

end Librecompat.Getopt
